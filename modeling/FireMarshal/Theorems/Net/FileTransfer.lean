import Mathlib.Data.List.TakeWhile
import FireMarshal.Net.FileTransfer

/-! Which files the receiver writes, for every way in which a connection may be cut into chunks. -/

namespace FireMarshal
namespace FileTransfer

/-- The name of a file in a directory, as far as both programs have room for it. -/
structure FileName where
  bytes : List UInt8
  nonempty : bytes ≠ []
  short : bytes.length < filenameSize
  noNul : 0 ∉ bytes
  noSlash : slash ∉ bytes
  notSpecial : bytes ≠ [dot] ∧ bytes ≠ [dot, dot]

variable {name : FileName} {path content : List UInt8} {cs : List (List UInt8)}

/-! ### The stream -/

/-- What a stream says: the length of the name, the name, and the content. -/
def decode (stream : List UInt8) : List UInt8 × List UInt8 :=
  (stream.drop 4).splitAt (ntohl (stream.take 4))

theorem basename_name (name : FileName) : basename name.bytes = name.bytes := by
  have hall : ∀ b ∈ name.bytes.reverse, b ≠ slash := by
    intro b hb hslash
    exact name.noSlash (hslash ▸ List.mem_reverse.mp hb)
  have hdrop : name.bytes.reverse.dropWhile (· = slash) = name.bytes.reverse := by
    cases h : name.bytes.reverse with
    | nil => rfl
    | cons b bs => simp [hall b (h ▸ List.mem_cons_self)]
  have htake : name.bytes.reverse.takeWhile (· ≠ slash) = name.bytes.reverse := by
    rw [List.takeWhile_eq_self_iff]
    simpa using hall
  rw [basename, if_neg name.nonempty, hdrop]
  split
  · next h => exact absurd (List.reverse_eq_nil_iff.mp h) name.nonempty
  · rw [htake, List.reverse_reverse]

theorem htonl_length {n : Nat} (h : n < filenameSize) : htonl n = [0, 0, 0, UInt8.ofNat n] := by
  have hdiv : ∀ k, 8 ≤ k → n >>> k = 0 := by
    intro k hk
    rw [Nat.shiftRight_eq_div_pow]
    exact Nat.div_eq_of_lt (Nat.lt_of_lt_of_le h (Nat.pow_le_pow_right (n := 2) (by decide) hk))
  simp [htonl, hdiv]

theorem ntohl_htonl {n : Nat} (h : n < filenameSize) : ntohl (htonl n) = n := by
  rw [htonl_length h]
  have hlt : n < 256 := h
  simpa [ntohl] using hlt

theorem flatten_send (hname : basename path = name.bytes) :
    (send path content).flatten = htonl name.bytes.length ++ name.bytes ++ content := by
  have hcontent : (Chunks.reads bufSize content.length [content]).flatten = content := by
    by_cases hnil : content = []
    · rw [hnil]
      rfl
    · have hproper : Chunks.Proper [content] := by simpa [Chunks.Proper] using hnil
      have hfuel : [content].flatten.length ≤ content.length := by simp
      simpa using hproper.flatten_reads (n := bufSize) (by decide) hfuel
  simp [send, hname, hcontent]

theorem decode_send (hname : basename path = name.bytes) :
    decode (send path content).flatten = (name.bytes, content) := by
  rw [flatten_send hname, decode, List.append_assoc]
  have hlen : (htonl name.bytes.length).length = 4 := rfl
  rw [List.drop_left' hlen, List.take_left' hlen, ntohl_htonl name.short, List.splitAt_eq]
  simp

/-! ### One connection -/

theorem ntohl_fill (locals : Locals) {n : Nat} (h : n < filenameSize) :
    ntohl (fill locals.fnameLen (htonl n)) = n := by
  have hfill : fill locals.fnameLen (htonl n) = htonl n := by simp [fill, htonl, locals.length_fnameLen]
  rw [hfill, ntohl_htonl h]

theorem cString_fill (buffer : List UInt8) {bytes : List UInt8} {n : Nat} (hn : bytes.length ≤ n) (hnul : 0 ∉ bytes) :
    ∃ rest, cString ((fill buffer bytes).set n 0) = bytes ++ rest ∧
      (n = bytes.length → n < buffer.length → rest = []) := by
  have hall : ∀ b ∈ bytes, decide (b ≠ 0) = true := by
    intro b hb
    have hb0 : b ≠ 0 := fun h => hnul (h ▸ hb)
    simpa using hb0
  rw [fill, List.set_append_right _ _ hn, cString, List.takeWhile_append_of_pos hall]
  refine ⟨_, rfl, ?_⟩
  rintro rfl hlt
  obtain ⟨b, bs, hdrop⟩ := List.exists_cons_of_length_pos (l := buffer.drop bytes.length) (by simpa using Nat.sub_pos_of_lt hlt)
  simp [hdrop]

theorem receive_eq_ok {fopen : List UInt8 → Bool} {locals : Locals} {file : List UInt8 × List UInt8}
    (hcs : Chunks.Proper cs) : receive fopen locals cs = .ok file ↔
    ∃ len, len = ntohl (fill locals.fnameLen (Chunks.read 4 cs).1) ∧ (Chunks.read 4 cs).1 ≠ [] ∧ len < filenameSize ∧
      (Chunks.read len (Chunks.read 4 cs).2).1 ≠ [] ∧ fopen file.1 = true ∧
      file.1 = cString ((fill locals.filename (Chunks.read len (Chunks.read 4 cs).2).1).set len 0) ∧
      file.2 = (Chunks.read len (Chunks.read 4 cs).2).2.flatten := by
  have hreads : ∀ len, (Chunks.reads bufSize (Chunks.read len (Chunks.read 4 cs).2).2.flatten.length
      (Chunks.read len (Chunks.read 4 cs).2).2).flatten = (Chunks.read len (Chunks.read 4 cs).2).2.flatten :=
    fun len => ((hcs.read 4).read len).flatten_reads (by decide) (Nat.le_refl _)
  obtain ⟨filename, content⟩ := file
  simp only [receive, hreads]
  constructor
  · intro h
    split at h
    · cases h
    next hfirst =>
    split at h
    · cases h
    next hlen =>
    split at h
    · cases h
    next hbytes =>
    split at h
    · next hopen =>
      cases h
      exact ⟨_, rfl, hfirst, Nat.lt_of_not_le hlen, hbytes, hopen, rfl, rfl⟩
    · cases h
  · rintro ⟨len, rfl, hfirst, hlen, hbytes, hopen, rfl, rfl⟩
    rw [if_neg hfirst, if_neg (Nat.not_le.mpr hlen), if_neg hbytes, if_pos hopen]

/-- Both fields before the content arrive in one piece each. -/
def HeaderWhole (len : Nat) (cs : List (List UInt8)) : Prop :=
  (Chunks.read 4 cs).1.length = 4 ∧ (Chunks.read len (Chunks.read 4 cs).2).1.length = len

instance (len : Nat) (cs : List (List UInt8)) : Decidable (HeaderWhole len cs) := instDecidableAnd

structure Directory where
  fopen : List UInt8 → Bool
  fopen_name : ∀ name : FileName, fopen name.bytes = true

theorem FileName.ofNat_length_ne_zero (name : FileName) : UInt8.ofNat name.bytes.length ≠ 0 := by
  intro h
  have hlt : name.bytes.length < 256 := name.short
  have hmod : name.bytes.length % 256 = 0 := by simpa using congrArg UInt8.toNat h
  rw [Nat.mod_eq_of_lt hlt] at hmod
  exact name.nonempty (List.eq_nil_of_length_eq_zero hmod)

theorem cString_ne_of_short {first bytes buffer : List UInt8} {len : Nat} (hfirst : first ≠ []) (hshort : first.length < 4)
    (hle : bytes.length ≤ len) (h : first ++ bytes = htonl name.bytes.length ++ name.bytes) :
    cString ((fill buffer bytes).set len 0) ≠ name.bytes := by
  -- Either a zero of the length comes first, or the length itself does, and the string is too long.
  have hzero : ∀ tail, bytes = 0 :: tail → cString ((fill buffer bytes).set len 0) ≠ name.bytes := by
    rintro tail rfl heq
    obtain ⟨len, rfl⟩ := Nat.exists_eq_add_of_le' hle
    refine name.nonempty (heq.symm.trans ?_)
    simp [fill, cString, ← Nat.add_assoc]
  rw [htonl_length name.short] at h
  rcases first with _ | ⟨x, _ | ⟨y, _ | ⟨z, _ | ⟨w, first⟩⟩⟩⟩
  · exact absurd rfl hfirst
  · exact hzero _ (List.cons.inj h).2
  · exact hzero _ (List.cons.inj (List.cons.inj h).2).2
  · obtain rfl := (List.cons.inj (List.cons.inj (List.cons.inj h).2).2).2
    have hnul : (0 : UInt8) ∉ UInt8.ofNat name.bytes.length :: name.bytes := by
      simp [name.noNul, name.ofNat_length_ne_zero.symm]
    obtain ⟨rest, heq, -⟩ := cString_fill buffer hle hnul
    intro hname
    have hlength := congrArg List.length (heq.symm.trans hname)
    simp at hlength
    omega
  · simp at hshort
    omega

theorem receive_sent_iff (dir : Directory) (locals : Locals) (hname : basename path = name.bytes)
    (hcs : Chunks.Proper cs) (hsent : cs.flatten = (send path content).flatten) :
    receive dir.fopen locals cs = .ok (name.bytes, content) ↔ HeaderWhole name.bytes.length cs := by
  have hfirst := Chunks.read_append 4 cs
  rw [hsent, flatten_send hname] at hfirst
  have hle := Chunks.length_read_le 4 cs
  rw [receive_eq_ok hcs]
  constructor
  · rintro ⟨len, hlen, hsome, -, -, -, hfilename, hcontent⟩
    have hsecond := Chunks.read_append len (Chunks.read 4 cs).2
    rw [← hcontent] at hsecond
    rw [← hsecond, ← List.append_assoc] at hfirst
    have hheader := List.append_cancel_right hfirst
    have hbytes := Chunks.length_read_le len (Chunks.read 4 cs).2
    rcases Nat.lt_or_eq_of_le hle with hshort | hfour
    · exact absurd hfilename.symm (cString_ne_of_short hsome hshort hbytes hheader)
    · obtain ⟨hlength, hbytes⟩ := List.append_inj hheader hfour
      rw [hlength, ntohl_fill locals name.short] at hlen
      subst hlen
      exact ⟨hfour, congrArg List.length hbytes⟩
  · rintro ⟨hfour, hall⟩
    rw [List.append_assoc] at hfirst
    obtain ⟨hlength, hrest⟩ := List.append_inj hfirst hfour
    have hsecond := Chunks.read_append name.bytes.length (Chunks.read 4 cs).2
    rw [hrest] at hsecond
    obtain ⟨hbytes, hcontent⟩ := List.append_inj hsecond hall
    have hroom : name.bytes.length < locals.filename.length := locals.length_filename ▸ name.short
    obtain ⟨rest, hstring, hrest⟩ := cString_fill locals.filename (Nat.le_refl _) name.noNul
    rw [hrest rfl hroom, List.append_nil] at hstring
    refine ⟨name.bytes.length, ?_, ?_, name.short, ?_, dir.fopen_name name, ?_, hcontent.symm⟩
    · rw [hlength, ntohl_fill locals name.short]
    · rw [hlength]
      exact List.cons_ne_nil _ _
    · rw [hbytes]
      exact name.nonempty
    · rw [hbytes, hstring]

/-! ### Transfers -/

structure Transfer where
  name : FileName
  path : List UInt8
  content : List UInt8
  locals : Locals
  chunks : List (List UInt8)
  basename_path : basename path = name.bytes
  proper : Chunks.Proper chunks
  sent : chunks.flatten = (send path content).flatten

/-- The stream always says which file was sent. The receiver writes that file exactly if the length and the name arrive
    in one piece each. -/
theorem received_iff_headerWhole (dir : Directory) (t : Transfer) :
    decode t.chunks.flatten = (t.name.bytes, t.content) ∧
      (receive dir.fopen t.locals t.chunks = .ok (t.name.bytes, t.content) ↔
        HeaderWhole t.name.bytes.length t.chunks) :=
  ⟨t.sent ▸ decode_send t.basename_path, receive_sent_iff dir t.locals t.basename_path t.proper t.sent⟩

def garbage : Locals where
  fnameLen := List.replicate 4 0
  filename := List.replicate filenameSize 0
  length_fnameLen := List.length_replicate
  length_filename := List.length_replicate

def cutName : Transfer where
  name := ⟨[97, 98], by decide, by decide, by decide, by decide, by decide⟩
  path := [97, 98]
  content := [10]
  locals := garbage
  chunks := [[0, 0, 0, 2], [97], [98], [10]]
  basename_path := basename_name ⟨[97, 98], by decide, by decide, by decide, by decide, by decide⟩
  proper := by simp [Chunks.Proper]
  sent := by decide

/-- The file `a` is written, with the rest of the name in front of the content. -/
theorem received_cutName : (cutName.name.bytes, cutName.content) = ([97, 98], [10]) ∧
    receive (fun _ => true) cutName.locals cutName.chunks = .ok ([97], [98, 10]) := by
  decide +kernel

def Transfer.store (disk : Disk) (t : Transfer) : Disk :=
  fun name => if name = t.name.bytes then some t.content else disk name

/-- Any number of transfers, one after the other. -/
theorem serve_of_headerWhole (dir : Directory) {ts : List Transfer}
    (h : ∀ t ∈ ts, HeaderWhole t.name.bytes.length t.chunks) (disk : Disk) :
    serve dir.fopen (ts.map fun t => (t.locals, t.chunks)) disk = (ts.foldl Transfer.store disk, none) := by
  induction ts generalizing disk with
  | nil => rfl
  | cons t ts ih =>
    have hwhole := h t List.mem_cons_self
    have hreceive := (receive_sent_iff dir t.locals t.basename_path t.proper t.sent).mpr hwhole
    rw [List.map_cons, serve, hreceive]
    exact ih (fun u hu => h u (List.mem_cons_of_mem _ hu)) _

end FileTransfer
end FireMarshal
