import FireMarshal.Mmap.Mmap

/-! What an accepted `mmap` request gives access to. The registers of a device are checked with a 64-bit sum of
    offset and length, a DMA buffer by the length alone; a mapping stays inside its region exactly when that sum
    does not wrap, which no request in user space can make it do. -/

namespace FireMarshal.Mmap

variable {v : Vma} {r : Region} {m : Mapping}

namespace Mapping

def start : Mapping → Nat
  | pfnRange pfn _ => pfn.toNat * 4096
  | coherent _ addr _ => addr.toNat

def len : Mapping → Nat
  | pfnRange _ size => size.toNat
  | coherent _ _ size => size.toNat

def ringIdx? : Mapping → Option Int
  | pfnRange _ _ => none
  | coherent ringIdx _ _ => some ringIdx

end Mapping

/-- The mapping lies inside the region, its ring exists, and nothing that was computed for it wrapped: the length,
    the offset, and for registers the end of the request and the page number. -/
structure Confined (v : Vma) (r : Region) (m : Mapping) : Prop where
  lower : r.phys.toNat ≤ m.start
  upper : m.start + m.len ≤ r.phys.toNat + r.size.toNat
  ring : ∀ i, m.ringIdx? = some i → 0 ≤ i ∧ i ≤ 63
  length : v.reqLen.toNat = v.vmEnd.toNat - v.vmStart.toNat ∧ v.vmStart.toNat ≤ v.vmEnd.toNat
  offset : v.reqStart.toNat = v.pgoff.toNat * 4096
  sum : m.ringIdx? = none → (v.reqStart + v.reqLen).toNat = v.reqStart.toNat + v.reqLen.toNat ∧
    ((r.phys >>> 12) + v.pgoff).toNat = r.phys.toNat / 4096 + v.pgoff.toNat

def Region.Aligned (r : Region) : Prop := r.phys.toNat % 4096 = 0

inductive Iocache.Selects (io : Iocache) : Int → Region → Prop where
  | control : io.Selects 0 io.control
  | udpTx (ring : Int) (h : 0 ≤ ring ∧ ring ≤ 63) : io.Selects (2 * ring + 1) (io.udpTx ring)
  | udpRx (ring : Int) (h : 0 ≤ ring ∧ ring ≤ 63) : io.Selects (2 * ring + 2) (io.udpRx ring)

inductive Accnet.Selects (nic : Accnet) : Int → Region → Prop where
  | control : nic.Selects 0 nic.control
  | udpTx : nic.Selects 1 nic.udpTx
  | udpRx : nic.Selects 2 nic.udpRx

structure Accnet.Aligned (nic : Accnet) : Prop where
  control : nic.control.Aligned
  udpTx : nic.udpTx.Aligned
  udpRx : nic.udpRx.Aligned

/-! ### The fields of a request -/

theorem Vma.pgoff_lt (v : Vma) : v.pgoff.toNat < 2 ^ 28 := by
  rw [pgoff, BitVec.toNat_and]
  exact Nat.lt_of_le_of_lt Nat.and_le_right (by decide)

theorem Vma.reqStart_toNat (v : Vma) : v.reqStart.toNat = v.pgoff.toNat * 4096 := by
  have hlt := v.pgoff_lt
  rw [reqStart, BitVec.toNat_shiftLeft, Nat.shiftLeft_eq]
  omega

theorem Vma.reqLen_toNat (h : v.valid = true) :
    v.reqLen.toNat = v.vmEnd.toNat - v.vmStart.toNat ∧ v.vmStart.toNat ≤ v.vmEnd.toNat := by
  have hle : v.vmStart.toNat ≤ v.vmEnd.toNat := by
    simp only [valid, Bool.and_eq_true, Bool.not_eq_true', decide_eq_false_iff_not, BitVec.lt_def] at h
    omega
  have hs := v.vmEnd.isLt
  rw [reqLen, BitVec.toNat_sub]
  omega

theorem pfn_toNat (r : Region) (v : Vma) :
    ((r.phys >>> 12) + v.pgoff).toNat = r.phys.toNat / 4096 + v.pgoff.toNat := by
  have hlt := v.pgoff_lt
  have hphys := r.phys.isLt
  rw [BitVec.toNat_add, BitVec.toNat_ushiftRight, Nat.shiftRight_eq_div_pow]
  omega

/-! ### Regions -/

theorem confined_regs (hr : r.Aligned) (hv : v.valid = true) (h : mapRegs r v = some m) :
    Confined v r m ↔ v.reqStart.toNat + v.reqLen.toNat < 2 ^ 64 := by
  simp only [mapRegs, Option.ite_none_left_eq_some, Option.some.injEq, BitVec.not_lt, BitVec.le_def,
    BitVec.toNat_add] at h
  obtain ⟨hle, rfl⟩ := h
  have hstart := v.reqStart_toNat
  have hpfn := pfn_toNat r v
  have haligned : r.phys.toNat % 4096 = 0 := hr
  constructor
  · intro hc
    have hsum := (hc.sum rfl).1
    rw [← hsum]
    exact (v.reqStart + v.reqLen).isLt
  · intro hlt
    rw [Nat.mod_eq_of_lt hlt] at hle
    refine ⟨?_, ?_, fun i hi => absurd hi.symm (Option.some_ne_none i), v.reqLen_toNat hv, hstart, fun _ => ⟨?_, hpfn⟩⟩
    · simp only [Mapping.start]
      omega
    · simp only [Mapping.start, Mapping.len]
      omega
    · rw [BitVec.toNat_add, Nat.mod_eq_of_lt hlt]

theorem confined_ring {buf : Int → Region} {i : Int} (hv : v.valid = true) (hi : 0 ≤ i ∧ i ≤ 63)
    (h : mapRing buf i v = some m) : Confined v (buf i) m := by
  simp only [mapRing, Option.ite_none_left_eq_some, Option.some.injEq, BitVec.not_lt, BitVec.le_def] at h
  obtain ⟨hle, rfl⟩ := h
  refine ⟨Nat.le_refl _, Nat.add_le_add_left hle _, fun j hj => ?_, v.reqLen_toNat hv, v.reqStart_toNat,
    fun hnone => absurd hnone (Option.some_ne_none i)⟩
  obtain rfl := Option.some.inj hj
  exact hi

/-! ### The handlers -/

theorem iocacheMiscMmap_confined {io : Iocache} (hio : io.control.Aligned) (h : iocacheMiscMmap io v = some m) :
    ∃ r, io.Selects v.index r ∧
      (Confined v r m ↔ (v.index = 0 → v.reqStart.toNat + v.reqLen.toNat < 2 ^ 64)) := by
  simp only [iocacheMiscMmap, entryCount, Option.ite_none_left_eq_some, Bool.not_eq_true'] at h
  obtain ⟨hv, h⟩ := h
  rw [Bool.not_eq_false] at hv
  split at h
  · next hzero =>
    refine ⟨io.control, by rw [hzero]; exact .control, ?_⟩
    rw [confined_regs hio hv h]
    exact ⟨fun hlt _ => hlt, fun hlt => hlt hzero⟩
  · next hzero =>
    obtain ⟨hrange, h⟩ := Option.ite_none_left_eq_some.mp h
    -- The index of a ring is positive, so that C's division rounds down.
    have hdiv : ∀ i : Int, 0 ≤ i → i.tdiv 2 = i / 2 := fun i hi => Int.tdiv_eq_ediv_of_nonneg hi
    rw [Int.tmod_eq_emod_of_nonneg (by omega)] at h
    split at h
    · next heven =>
      rw [hdiv _ (by omega)] at h
      obtain ⟨ring, hring⟩ : ∃ ring, (v.index - 2) / 2 = ring := ⟨_, rfl⟩
      rw [hring] at h
      have hidx : v.index = 2 * ring + 2 := by omega
      have hle : 0 ≤ ring ∧ ring ≤ 63 := by omega
      refine ⟨io.udpRx ring, ?_, iff_of_true (confined_ring hv hle h) fun heq => absurd heq hzero⟩
      rw [hidx]
      exact .udpRx ring hle
    · next hodd =>
      rw [hdiv _ (by omega)] at h
      obtain ⟨ring, hring⟩ : ∃ ring, (v.index - 1) / 2 = ring := ⟨_, rfl⟩
      rw [hring] at h
      have hidx : v.index = 2 * ring + 1 := by omega
      have hle : 0 ≤ ring ∧ ring ≤ 63 := by omega
      refine ⟨io.udpTx ring, ?_, iff_of_true (confined_ring hv hle h) fun heq => absurd heq hzero⟩
      rw [hidx]
      exact .udpTx ring hle

theorem accnetMiscMmap_confined {nic : Accnet} (hnic : nic.Aligned) (h : accnetMiscMmap nic v = some m) :
    ∃ r, nic.Selects v.index r ∧ (Confined v r m ↔ v.reqStart.toNat + v.reqLen.toNat < 2 ^ 64) := by
  simp only [accnetMiscMmap, Option.ite_none_left_eq_some, Bool.not_eq_true'] at h
  obtain ⟨hv, h⟩ := h
  rw [Bool.not_eq_false] at hv
  split at h
  · next hidx => exact ⟨nic.control, by rw [hidx]; exact .control, confined_regs hnic.control hv h⟩
  split at h
  · next hidx => exact ⟨nic.udpTx, by rw [hidx]; exact .udpTx, confined_regs hnic.udpTx hv h⟩
  split at h
  · next hidx => exact ⟨nic.udpRx, by rw [hidx]; exact .udpRx, confined_regs hnic.udpRx hv h⟩
  · exact absurd h.symm (Option.some_ne_none m)

theorem mmap_confined_iff (io : Iocache) (nic : Accnet) (hio : io.control.Aligned) (hnic : nic.Aligned) (v : Vma) :
    (∀ m, iocacheMiscMmap io v = some m → ∃ r, io.Selects v.index r ∧
      (Confined v r m ↔ (v.index = 0 → v.reqStart.toNat + v.reqLen.toNat < 2 ^ 64))) ∧
    (∀ m, accnetMiscMmap nic v = some m → ∃ r, nic.Selects v.index r ∧
      (Confined v r m ↔ v.reqStart.toNat + v.reqLen.toNat < 2 ^ 64)) ∧
    (v.valid = true → v.vmEnd.toNat ≤ 2 ^ 64 - 2 ^ 40 → v.reqStart.toNat + v.reqLen.toNat < 2 ^ 64) := by
  refine ⟨fun m h => iocacheMiscMmap_confined hio h, fun m h => accnetMiscMmap_confined hnic h, fun hv hend => ?_⟩
  have hstart := v.reqStart_toNat
  have hlt := v.pgoff_lt
  obtain ⟨hlen, -⟩ := v.reqLen_toNat hv
  omega

def sampleIo : Iocache where
  control := ⟨0x10000000#64, 0x1000#64⟩
  udpTx _ := ⟨0x80000000#64, 0x8000#64⟩
  udpRx _ := ⟨0x80010000#64, 0x8000#64⟩

def sampleNic : Accnet where
  control := ⟨0x20000000#64, 0x1000#64⟩
  udpTx := ⟨0x20001000#64, 0x1000#64⟩
  udpRx := ⟨0x20002000#64, 0x1000#64⟩

theorem mmap_confined_page : ∃ r, sampleIo.Selects 0 r ∧
    Confined ⟨0x1000#64, 0x2000#64, 0#64, true⟩ r (.pfnRange 0x10000#64 0x1000#64) := by
  have h := mmap_confined_iff sampleIo sampleNic rfl ⟨rfl, rfl, rfl⟩ ⟨0x1000#64, 0x2000#64, 0#64, true⟩
  obtain ⟨r, hsel, hiff⟩ := h.1 (.pfnRange 0x10000#64 0x1000#64) (by decide)
  exact ⟨r, hsel, hiff.mpr fun _ => h.2.2 (by decide) (by decide)⟩

/-- A request for all pages but one, at an offset of one page: its end wraps to zero, so it is accepted. -/
theorem mmap_end_wraps :
    iocacheMiscMmap sampleIo ⟨0#64, 0xfffffffffffff000#64, 1#64, true⟩ =
        some (.pfnRange 0x10001#64 0xfffffffffffff000#64) ∧
      ¬ ∃ r, sampleIo.Selects (Vma.index ⟨0#64, 0xfffffffffffff000#64, 1#64, true⟩) r ∧
        Confined ⟨0#64, 0xfffffffffffff000#64, 1#64, true⟩ r (.pfnRange 0x10001#64 0xfffffffffffff000#64) := by
  refine ⟨by decide, ?_⟩
  rintro ⟨r, -, hc⟩
  have hsum := (hc.sum rfl).1
  revert hsum
  decide

end FireMarshal.Mmap
