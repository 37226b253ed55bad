import ElephantOS.DirectoryView

namespace ElephantOS

open ByteMemory HaltingState

def newBlockBytes (io : Memory) (pDe : DirEntry) : Memory := blit (blit io 0 zeros 512) 0 pDe.bytes 24

inductive Synced (K : Kernel) (pDe : DirEntry) (k : Kern) (inode : Inode) : Kern → Inode → Prop
  | slot {p j : ℕ} {k' : Kern} (hp : p < 12) (hj : j < 21) (hb : inode.iSectors p ≠ 0)
      (hfree : (entryAt k.disk (inode.iSectors p * 512 + 24 * j)).fType = .unknown) (hpast : ∀ q < p, inode.iSectors q ≠ 0)
      (hk : HeapOnly { k with disk := blit k.disk (inode.iSectors p * 512 + 24 * j) pDe.bytes 24 } k') :
      Synced K pDe k inode k' { inode with iSize := u32 (inode.iSize + 24) }
  | block {p lba : ℕ} {k1 k' : Kern} {io : Memory} (hp : p < 12) (hb : inode.iSectors p = 0)
      (ha : Allocated K.toPartition [lba] k k1)
      (hs : ∀ j, SyncedAt K.toPartition k j → SyncedAt K.toPartition k1 j) (hr : lba ≤ maxLba)
      (hk : k' = { k1 with disk := blit k1.disk (lba * 512) (newBlockBytes io pDe) 512 }) :
      Synced K pDe k inode k' { inode.setSector p lba with iSize := u32 (inode.iSize + 24) }
  | table {lba lba' : ℕ} {k1 k2 k' : Kern} {io : Memory}
      (hfull : ∀ p < 12, inode.iSectors p ≠ 0 ∧
        ∀ j < 21, (entryAt k.disk (inode.iSectors p * 512 + 24 * j)).fType ≠ .unknown)
      (ha : Allocated K.toPartition [lba] k k1) (ha' : Allocated K.toPartition [lba'] k1 k2)
      (hs : ∀ j, SyncedAt K.toPartition k j → SyncedAt K.toPartition k2 j) (hr : lba ≤ maxLba) (hr' : lba' ≤ maxLba)
      (hk : k' = { k2 with
        disk := blit (blit k2.disk (lba * 512) (wordBytes fun i => Function.update (dirBlocks inode) 12 lba' (12 + i)) 512)
          (lba' * 512) (newBlockBytes io pDe) 512 }) :
      Synced K pDe k inode k' { (inode.setSector 12 lba).setSector 13 lba' with iSize := u32 (inode.iSize + 24) }

section

variable {K : Kernel} {inode inode' : Inode} {k k' : Kern}

theorem allocSync_ok {r : Option ℕ} {k1 : Kern} (hl : k.blockBitmap.btmpBytesLen % 512 = 0)
    (h : blockBitmapAlloc K k = .ok (r, k1)) : ∃ lba, r = some lba ∧
      ∀ u k', bitmapSync K (lba - K.sb.dataStartLba) .blockBitmap k1 = .ok (u, k') →
        Allocated K.toPartition [lba] k k' ∧ ∀ j, SyncedAt K.toPartition k j → SyncedAt K.toPartition k' j := by
  obtain ⟨lba, rfl, ha, -⟩ := blockBitmapAlloc_allocated h
  refine ⟨lba, rfl, fun u k' hs => ?_⟩
  obtain ⟨ha', -, hsync⟩ := ha.synced hl hs
  exact ⟨ha', hsync⟩

theorem newDirBlock_direct {idx : ℕ} {blocks blocks' : ℕ → ℕ} {ok : Bool} (hl : k.blockBitmap.btmpBytesLen % 512 = 0)
    (hidx : idx < 12) (h : newDirBlock K idx inode blocks k = .ok ((ok, inode', blocks'), k')) :
    ok = true ∧ ∃ lba, inode' = inode.setSector idx lba ∧ blocks' = Function.update blocks idx lba ∧
      Allocated K.toPartition [lba] k k' ∧ ∀ j, SyncedAt K.toPartition k j → SyncedAt K.toPartition k' j := by
  unfold newDirBlock at h
  rw [bind_ok] at h
  obtain ⟨r, k1, halloc, h⟩ := h
  obtain ⟨lba, rfl, -, -⟩ := blockBitmapAlloc_allocated halloc
  simp only [bind_ok, assert_ok, hidx, if_true, pure_ok, Prod.mk.injEq] at h
  obtain ⟨_, _, ⟨-, rfl⟩, _, k2, hsync, ⟨rfl, rfl, rfl⟩, rfl⟩ := h
  obtain ⟨_, he, hall⟩ := allocSync_ok hl halloc
  obtain rfl := Option.some.inj he
  obtain ⟨ha, hs⟩ := hall _ _ hsync
  exact ⟨rfl, lba, rfl, rfl, ha, hs⟩

theorem newDirBlock_table {blocks blocks' : ℕ → ℕ} {ok : Bool} (hl : k.blockBitmap.btmpBytesLen % 512 = 0)
    (h : newDirBlock K 12 inode blocks k = .ok ((ok, inode', blocks'), k')) :
    ok = true ∧ ∃ lba lba' k1 k2, inode' = (inode.setSector 12 lba).setSector 13 lba' ∧
      blocks' = Function.update blocks 12 lba' ∧ Allocated K.toPartition [lba] k k1 ∧ Allocated K.toPartition [lba'] k1 k2 ∧
      (∀ j, SyncedAt K.toPartition k j → SyncedAt K.toPartition k2 j) ∧ lba ≤ maxLba ∧
      k' = { k2 with disk := blit k2.disk (lba * 512) (wordBytes fun i => blocks' (12 + i)) 512 } := by
  unfold newDirBlock at h
  rw [bind_ok] at h
  obtain ⟨r, k1, halloc, h⟩ := h
  obtain ⟨lba, rfl, -, -⟩ := blockBitmapAlloc_allocated halloc
  simp only [bind_ok, assert_ok, lt_irrefl, if_false, if_true] at h
  obtain ⟨_, _, ⟨-, rfl⟩, _, k2, hsync, r', k3, halloc', h⟩ := h
  obtain ⟨_, he, hall⟩ := allocSync_ok hl halloc
  obtain rfl := Option.some.inj he
  obtain ⟨ha, hs⟩ := hall _ _ hsync
  obtain ⟨lba', rfl, hall'⟩ := allocSync_ok (by rw [ha.len]; exact hl) halloc'
  simp only [bind_ok, assert_ok, pure_ok, Prod.mk.injEq] at h
  obtain ⟨_, _, ⟨-, rfl⟩, _, k4, hsync', _, k5, hw, ⟨rfl, rfl, rfl⟩, rfl⟩ := h
  obtain ⟨ha', hs'⟩ := hall' _ _ hsync'
  obtain ⟨hr, rfl⟩ := (ideWrite_ok _ _ _ _ _ _).mp hw
  exact ⟨rfl, lba, lba', k2, k4, rfl, rfl, ha, ha', fun j hj => hs' j (hs j hj), sectorRange_one.mp hr, rfl⟩

theorem slotWrite {lba j n : ℕ} {bytes : Memory} {buf b : Buffer} {u : Unit} {k1 : Kern} (hj : j < 21) (hn : n ≤ 24)
    (hr : ideRead lba buf 1 k = .ok (b, k1))
    (hw : ideWrite lba (blit b.bytes (24 * j) bytes n) 1 k1 = .ok (u, k')) :
    HeapOnly { k with disk := blit k.disk (lba * 512 + 24 * j) bytes n } k' := by
  obtain ⟨-, hk1, rfl⟩ := ideRead_ok hr
  obtain ⟨-, rfl⟩ := (ideWrite_ok _ _ _ _ _ _).mp hw
  refine ⟨?_, hk1.blockBitmap, hk1.inodeBitmap, hk1.pool, hk1.grant, hk1.next⟩
  change blit k1.disk _ _ _ = _
  rw [hk1.disk, blit_readback _ _ _ (by omega)]

theorem syncBlocks_ok {pDe : DirEntry} {more idx : ℕ} {io : Buffer} {ok : Bool} (hk : K.sb.dirEntrySize = 24)
    (hl : k.blockBitmap.btmpBytesLen % 512 = 0) (hmore : more + idx = 140) (hidx : idx ≤ 12)
    (hfull : ∀ p < idx, inode.iSectors p ≠ 0 ∧
      ∀ j < 21, (entryAt k.disk (inode.iSectors p * 512 + 24 * j)).fType ≠ .unknown)
    (h : syncBlocks K pDe more idx inode (dirBlocks inode) io k = .ok ((ok, inode'), k')) :
    ok = true ∧ ∃ k0, HeapOnly k k0 ∧ Synced K pDe k0 inode k' inode' := by
  induction more generalizing idx io k with
  | zero => omega
  | succ more ih =>
    unfold syncBlocks at h
    rw [hk] at h
    by_cases hz : dirBlocks inode idx = 0
    · rw [if_pos hz, bind_ok] at h
      obtain ⟨⟨ok1, inode1, blocks1⟩, k1, hnew, h⟩ := h
      by_cases hlt : idx < 12
      · obtain ⟨rfl, lba, rfl, rfl, ha, hs⟩ := newDirBlock_direct hl hlt hnew
        simp only [Bool.not_true, Bool.false_eq_true, if_false, bind_ok, pure_ok, Prod.mk.injEq,
          Function.update_self] at h
        obtain ⟨_, k2, hw, ⟨rfl, rfl⟩, rfl⟩ := h
        obtain ⟨hr, rfl⟩ := (ideWrite_ok _ _ _ _ _ _).mp hw
        have hsize : (inode.setSector idx lba).iSize = inode.iSize := by simp [Inode.setSector, show idx < 13 by omega]
        rw [hsize]
        refine ⟨rfl, k, HeapOnly.refl _, .block hlt ?_ ha hs (sectorRange_one.mp hr) rfl⟩
        simpa [dirBlocks, hlt] using hz
      · obtain rfl : idx = 12 := by omega
        obtain ⟨rfl, lba, lba', k2, k3, rfl, rfl, ha, ha', hs, hr, rfl⟩ := newDirBlock_table hl hnew
        simp only [Bool.not_true, Bool.false_eq_true, if_false, bind_ok, pure_ok, Prod.mk.injEq,
          Function.update_self] at h
        obtain ⟨_, k4, hw, ⟨rfl, rfl⟩, rfl⟩ := h
        obtain ⟨hr', rfl⟩ := (ideWrite_ok _ _ _ _ _ _).mp hw
        exact ⟨rfl, k, HeapOnly.refl _, .table hfull ha ha' hs hr (sectorRange_one.mp hr') rfl⟩
    · have hlt : idx < 12 := by
        by_contra hge
        exact hz (if_neg hge)
      have hblk : dirBlocks inode idx = inode.iSectors idx := if_pos hlt
      rw [hblk] at hz h
      rw [if_neg hz, bind_ok] at h
      obtain ⟨b, k1, hr, h⟩ := h
      obtain ⟨hk1, -, -, hholds⟩ := ideRead_holds hr
      have hper : dirEntrysPerSec K = 21 := by rw [dirEntrysPerSec, hk]
      rw [hper] at h
      cases hf : firstSlot 21 fun i => decide ((DirEntry.load b.bytes (24 * i)).fType = .unknown) with
      | some j =>
        obtain ⟨hj, hmatch, -⟩ := firstSlot_some.mp hf
        simp only [hf, bind_ok, pure_ok, Prod.mk.injEq] at h
        obtain ⟨_, k2, hw, ⟨rfl, rfl⟩, rfl⟩ := h
        have hfree := of_decide_eq_true hmatch
        rw [load_fType, hholds.entryAt hj] at hfree
        exact ⟨rfl, k, HeapOnly.refl _, .slot hlt hj hz hfree (fun q hq => (hfull q hq).1) (slotWrite hj (le_refl _) hr hw)⟩
      | none =>
        simp only [hf] at h
        have hnone := firstSlot_none.mp hf
        have hfull' : ∀ p < idx + 1, inode.iSectors p ≠ 0 ∧
            ∀ j < 21, (entryAt k1.disk (inode.iSectors p * 512 + 24 * j)).fType ≠ .unknown := by
          intro p hp
          rw [hk1.disk]
          by_cases heq : p = idx
          · subst heq
            refine ⟨hz, fun j hj => ?_⟩
            have := of_decide_eq_false (hnone j hj)
            rwa [load_fType, hholds.entryAt hj] at this
          · exact hfull p (by omega)
        obtain ⟨rfl, k0, hk0, hsy⟩ := ih (by rw [hk1.blockBitmap]; exact hl) (by omega) (by omega) hfull' h
        exact ⟨rfl, k0, hk1.trans hk0, hsy⟩

theorem syncDirEntry_ok {pDe : DirEntry} {io : Buffer} {ok : Bool} (hk : K.sb.dirEntrySize = 24)
    (hl : k.blockBitmap.btmpBytesLen % 512 = 0) (h : syncDirEntry K inode pDe io k = .ok ((ok, inode'), k')) :
    ok = true ∧ inode.iSize % 24 = 0 ∧ ∃ k0, HeapOnly k k0 ∧ Synced K pDe k0 inode k' inode' := by
  unfold syncDirEntry at h
  simp only [bind_ok, assert_ok, hk] at h
  obtain ⟨_, _, ⟨hsize, rfl⟩, h⟩ := h
  obtain ⟨hok, hsy⟩ := syncBlocks_ok hk hl rfl (by omega) (fun p hp => absurd hp (Nat.not_lt_zero _)) h
  exact ⟨hok, hsize, hsy⟩

end

end ElephantOS
