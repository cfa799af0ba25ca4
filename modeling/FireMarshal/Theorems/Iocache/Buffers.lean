import FireMarshal.Theorems.Iocache.Session
import FireMarshal.Theorems.Mmap.Mmap
import FireMarshal.Iocache.Buffers

/-! Which rows `iocache_open` maps buffers for. The offset of a request has room for 24 bits of the index, so that the
    driver sees a row modulo `2 ^ 23`. A row outside the table is refused, unless these bits name a row of the table:
    then it is given the buffers of that row. -/

namespace FireMarshal.Iocache
open Mmap

structure Sized (io : Mmap.Iocache) : Prop where
  tx : ∀ ring, (io.udpTx ring).size = 0x8000#64
  rx : ∀ ring, (io.udpRx ring).size = 0x8000#64

/-- Both mappings are those of the row, and the row is one of the table. -/
structure MapsRow (io : Mmap.Iocache) (row : CInt) (m : Mapping × Mapping) : Prop where
  range : InRange row
  tx : m.1 = .coherent row.toInt (io.udpTx row.toInt).phys bufferLen
  rx : m.2 = .coherent row.toInt (io.udpRx row.toInt).phys bufferLen

def seenRow (row : CInt) : Nat := row.toNat % 2 ^ 23

/-- A row of the table, or one whose lower 23 bits name none. -/
def Unaliased (row : CInt) : Prop := InRange row ∨ cacheEntryCount ≤ seenRow row

instance (row : CInt) : Decidable (Unaliased row) := inferInstanceAs (Decidable (_ ∨ _))

variable {io : Mmap.Iocache} {row row' : CInt}

/-! ### Indices -/

theorem index_vma (a : Place) (idx : BitVec 64) : (a.vma idx).index = (idx.setWidth 24).toInt := by
  have hbits : (((mapIndex idx).sshiftRight 12) >>> 28).setWidth 32 = (idx.setWidth 24).signExtend 32 := by
    have hmsb : (mapIndex idx).msb = (idx.setWidth 24).msb := by simp [mapIndex, BitVec.msb_eq_getLsbD_last]
    ext i hi
    simp only [BitVec.getElem_setWidth, BitVec.getLsbD_ushiftRight, BitVec.getLsbD_sshiftRight,
      BitVec.getElem_signExtend, hmsb]
    by_cases hlt : i < 24
    · have hbit : (mapIndex idx).getLsbD (12 + (28 + i)) = idx.getLsbD i := by
        rw [mapIndex, BitVec.getLsbD_shiftLeft]
        grind
      rw [if_pos (by omega), hbit]
      simp [hlt]
      omega
    · simp [hlt, show ¬12 + (28 + i) < 64 by omega]
      omega
  have hindex : (a.vma idx).index = (((mapIndex idx).sshiftRight 12 >>> 28).setWidth 32).toInt := rfl
  rw [hindex, hbits, BitVec.toInt_signExtend_of_le (by decide)]

theorem toNat_signExtend_mod (row : CInt) : (row.signExtend 64).toNat % 2 ^ 32 = row.toNat := by
  have hrow := row.isLt
  rw [BitVec.toNat_signExtend]
  split
  · simp
    omega
  · simp
    omega

theorem toNat_txIdx (row : CInt) : ((txIdx row).setWidth 24).toNat = 2 * seenRow row + 1 := by
  have hrow := toNat_signExtend_mod row
  rw [BitVec.toNat_setWidth, txIdx, BitVec.toNat_add, BitVec.toNat_mul, BitVec.toNat_ofNat, BitVec.toNat_ofNat,
    seenRow]
  omega

theorem toNat_rxIdx (h : seenRow row < cacheEntryCount) : ((rxIdx row).setWidth 24).toNat = 2 * seenRow row + 2 := by
  have hrow := toNat_signExtend_mod row
  unfold seenRow cacheEntryCount at *
  rw [BitVec.toNat_setWidth, rxIdx, BitVec.toNat_add, BitVec.toNat_mul, BitVec.toNat_ofNat]
  omega

theorem inRange_iff : InRange row ↔ row.toNat < cacheEntryCount := by
  have hrow := row.isLt
  rw [InRange, cacheEntryCount, BitVec.toInt_eq_toNat_cond]
  split <;> omega

theorem seenRow_of_inRange (h : InRange row) : (seenRow row : Int) = row.toInt := by
  have hlt := inRange_iff.mp h
  rw [cacheEntryCount] at hlt
  rw [seenRow, BitVec.toInt_eq_toNat_cond, if_pos (by omega), Nat.mod_eq_of_lt (by omega)]

/-! ### Requests -/

theorem valid_vma (a : Place) (idx : BitVec 64) : (a.vma idx).valid = true := by
  have hfits := a.fits
  have hle : ¬a.start + bufferLen < a.start := by
    rw [BitVec.lt_def, BitVec.toNat_add, Nat.mod_eq_of_lt hfits]
    omega
  simp [Vma.valid, Place.vma, hle]

theorem reqLen_vma (a : Place) (idx : BitVec 64) : (a.vma idx).reqLen = bufferLen := by
  rw [Vma.reqLen, Place.vma, BitVec.add_comm, BitVec.add_sub_cancel]

theorem mapRing_vma {buf : Int → Region} {ring : Int} (a : Place) (idx : BitVec 64) (h : (buf ring).size = 0x8000#64) :
    mapRing buf ring (a.vma idx) = some (.coherent ring (buf ring).phys bufferLen) := by
  rw [mapRing, h, reqLen_vma, if_neg (by decide)]

theorem mmapTx_eq (hio : Sized io) (a : Place) (row : CInt) : mmapTx io a row =
    if seenRow row < cacheEntryCount then some (.coherent (seenRow row) (io.udpTx (seenRow row)).phys bufferLen)
    else none := by
  have hidx : (a.vma (txIdx row)).index = if 2 * (2 * seenRow row + 1) < 2 ^ 24 then (2 * seenRow row + 1 : Int)
      else 2 * seenRow row + 1 - 2 ^ 24 := by
    rw [index_vma, BitVec.toInt_eq_toNat_cond, toNat_txIdx]
    split <;> omega
  have hseen : seenRow row < 2 ^ 23 := Nat.mod_lt _ (by decide)
  rw [mmapTx, iocacheMiscMmap, if_neg (by simp [valid_vma])]
  generalize (a.vma (txIdx row)).index = index at hidx
  unfold cacheEntryCount entryCount
  by_cases hlt : seenRow row < 64
  · rw [if_pos (by omega)] at hidx
    rw [if_pos hlt, if_neg (by omega), if_neg (by omega), Int.tmod_eq_emod_of_nonneg (by omega), if_neg (by omega),
      Int.tdiv_eq_ediv_of_nonneg (by omega), show (index - 1) / 2 = seenRow row by omega]
    exact mapRing_vma a _ (hio.tx _)
  · rw [if_neg hlt, if_neg (by split at hidx <;> omega), if_pos (by split at hidx <;> omega)]

theorem mmapRx_eq (hio : Sized io) (a : Place) (h : seenRow row < cacheEntryCount) :
    mmapRx io a row = some (.coherent (seenRow row) (io.udpRx (seenRow row)).phys bufferLen) := by
  have hidx : (a.vma (rxIdx row)).index = 2 * seenRow row + 2 := by
    rw [index_vma, BitVec.toInt_eq_toNat_cond, toNat_rxIdx h]
    unfold cacheEntryCount at h
    split <;> omega
  rw [mmapRx, iocacheMiscMmap, if_neg (by simp [valid_vma])]
  generalize (a.vma (rxIdx row)).index = index at hidx
  unfold cacheEntryCount at h
  unfold entryCount
  rw [if_neg (by omega), if_neg (by omega), Int.tmod_eq_emod_of_nonneg (by omega), if_pos (by omega),
    Int.tdiv_eq_ediv_of_nonneg (by omega), show (index - 2) / 2 = seenRow row by omega]
  exact mapRing_vma a _ (hio.rx _)

theorem openBuffers_eq_some (hio : Sized io) {tx rx : Place} {m : Mapping × Mapping} :
    openBuffers io tx rx row = some m ↔ seenRow row < cacheEntryCount ∧
      m = (.coherent (seenRow row) (io.udpTx (seenRow row)).phys bufferLen,
        .coherent (seenRow row) (io.udpRx (seenRow row)).phys bufferLen) := by
  rw [openBuffers, mmapTx_eq hio]
  by_cases h : seenRow row < cacheEntryCount
  · simp [h, mmapRx_eq hio rx h, eq_comm]
  · simp [h]

/-! ### Rows -/

theorem mapsRow_iff (hio : Sized io) (tx rx : Place) :
    (∀ m, openBuffers io tx rx row = some m → MapsRow io row m) ↔ Unaliased row := by
  constructor
  · intro h
    rcases Nat.lt_or_ge (seenRow row) cacheEntryCount with hlt | hge
    · exact .inl (h _ ((openBuffers_eq_some hio).mpr ⟨hlt, rfl⟩)).range
    · exact .inr hge
  · rintro hrow m hm
    obtain ⟨hlt, rfl⟩ := (openBuffers_eq_some hio).mp hm
    have hrange : InRange row := hrow.resolve_right (by omega)
    rw [seenRow_of_inRange hrange]
    exact ⟨hrange, rfl, rfl⟩

theorem MapsRow.ringIdx_ne {m m' : Mapping × Mapping} (h : MapsRow io row m) (h' : MapsRow io row' m')
    (hne : row ≠ row') : m.1.ringIdx? ≠ m'.1.ringIdx? ∧ m.2.ringIdx? ≠ m'.2.ringIdx? := by
  have hint : row.toInt ≠ row'.toInt := fun heq => hne (BitVec.eq_of_toInt_eq heq)
  rw [h.tx, h.rx, h'.tx, h'.rx]
  exact ⟨fun heq => hint (Option.some.inj heq), fun heq => hint (Option.some.inj heq)⟩

namespace Sys

variable {s t : Sys} {p : Task} {info info' : IocacheInfo} {env : OpenEnv}

theorem mapped_of_iocacheOpen (h : s.iocacheOpen p info row env = (0, info', t)) :
    env.mmapTx = true ∧ env.mmapRx = true := by
  unfold iocacheOpen at h
  split at h
  · cases h
  · simp only at h
    split at h
    · cases h
    · split at h
      · cases h
      · split at h
        · cases h
        · next hmap =>
          simp only [Bool.or_eq_true, Bool.not_eq_true', not_or, Bool.not_eq_false] at hmap
          exact ⟨hmap.1.2, hmap.2⟩

theorem iocacheOpen_row {tx rx : Place} (hp : p ∈ s.dev.alive)
    (henv : env.Answered io tx rx (env.row info row)) (h : s.iocacheOpen p info row env = (0, info', t)) :
    (∃ m, openBuffers io tx rx info'.row = some m) ∧
      (env.copyIn = true → env.copyOut = true →
        info'.row = row ∧ t.dev.iocacheId p = row ∧ (InRange row → t.dev.procPtr row = p)) := by
  have hrow : info'.row = env.row info row := by
    rw [(iocacheOpen_eq h).2]
    rfl
  obtain ⟨htx, hrx⟩ := mapped_of_iocacheOpen h
  refine ⟨?_, fun hin hout => ?_⟩
  · obtain ⟨mt, hmt⟩ := Option.isSome_iff_exists.mp (henv.tx.symm.trans htx)
    obtain ⟨mr, hmr⟩ := Option.isSome_iff_exists.mp (henv.rx.symm.trans hrx)
    refine ⟨(mt, mr), ?_⟩
    rw [hrow, openBuffers, hmt, hmr]
    rfl
  · obtain ⟨hinfo, -, hdev⟩ := dev_iocacheOpen hp hin hout h
    refine ⟨by rw [hinfo], ?_, fun hrange => ?_⟩
    · rw [hdev, Dev.reserveRing_snd]
      exact Function.update_self ..
    · rw [hdev, Dev.procPtr_iowrite_of_lt (Dev.regIntmaskRx_lt env.cpu_lt) hrange, Dev.procPtr_reserveRing,
        if_pos rfl]

end Sys

theorem openBuffers_iff (io : Mmap.Iocache) (hio : Sized io) (tx rx tx' rx' : Place) (row row' : CInt) :
    (((∀ m, openBuffers io tx rx row = some m → MapsRow io row m) ∧
      (∀ m, openBuffers io tx' rx' row' = some m → MapsRow io row' m) ∧
      ∀ m m', row ≠ row' → openBuffers io tx rx row = some m → openBuffers io tx' rx' row' = some m' →
        m.1.ringIdx? ≠ m'.1.ringIdx? ∧ m.2.ringIdx? ≠ m'.2.ringIdx?) ↔ Unaliased row ∧ Unaliased row') ∧
    ∀ (s t : Sys) (p : Task) (info info' : IocacheInfo) (env : OpenEnv), p ∈ s.dev.alive →
      env.Answered io tx rx (env.row info row) → s.iocacheOpen p info row env = (0, info', t) →
        (∃ m, openBuffers io tx rx info'.row = some m) ∧
          (env.copyIn = true → env.copyOut = true →
            info'.row = row ∧ t.dev.iocacheId p = row ∧ (InRange row → t.dev.procPtr row = p)) := by
  refine ⟨?_, fun s t p info info' env => Sys.iocacheOpen_row⟩
  constructor
  · rintro ⟨h, h', -⟩
    exact ⟨(mapsRow_iff hio tx rx).mp h, (mapsRow_iff hio tx' rx').mp h'⟩
  · rintro ⟨hrow, hrow'⟩
    have h := (mapsRow_iff hio tx rx).mpr hrow
    have h' := (mapsRow_iff hio tx' rx').mpr hrow'
    exact ⟨h, h', fun m m' hne hm hm' => (h m hm).ringIdx_ne (h' m' hm') hne⟩

def rowsIo : Mmap.Iocache where
  control := ⟨0x10000000#64, 0x4300#64⟩
  udpTx ring := ⟨0x80000000#64 + 0x10000#64 * BitVec.ofInt 64 ring, 0x8000#64⟩
  udpRx ring := ⟨0x80008000#64 + 0x10000#64 * BitVec.ofInt 64 ring, 0x8000#64⟩

def txPlace : Place := ⟨0x3f00000000#64, by decide⟩

def rxPlace : Place := ⟨0x3f00004000#64, by decide⟩

theorem openBuffers_rows : (∀ m, openBuffers rowsIo txPlace rxPlace 3#32 = some m → MapsRow rowsIo 3#32 m) ∧
    openBuffers rowsIo txPlace rxPlace 3#32 =
      some (.coherent 3 0x80030000#64 0x3000#64, .coherent 3 0x80038000#64 0x3000#64) := by
  have h := openBuffers_iff rowsIo ⟨fun _ => rfl, fun _ => rfl⟩ txPlace rxPlace txPlace rxPlace 3#32 5#32
  exact ⟨(h.1.mpr (by decide)).1, by decide⟩

/-- Row `2 ^ 23` is accepted, and is given the buffers of row 0. -/
theorem openBuffers_aliased :
    openBuffers rowsIo txPlace rxPlace 0x800000#32 =
        some (.coherent 0 0x80000000#64 0x3000#64, .coherent 0 0x80008000#64 0x3000#64) ∧
      openBuffers rowsIo txPlace rxPlace 0#32 = openBuffers rowsIo txPlace rxPlace 0x800000#32 ∧
      ¬ InRange 0x800000#32 := by
  refine ⟨by decide, by decide, by decide⟩

end FireMarshal.Iocache
