import SrgGrading.Core.Base64

/-!
# Well-formed snapshots

`validate_structure` goes through the files once: it counts the bytes decoded so
far and looks up the directories of each path among the paths.  What it accepts
is said here without the loop.

* `Text.mem_parents_iff`: the texts that are looked up are the directories a
  path lies in.
* `Snapshot.validateFiles_iff`: what a run over some of the files accepts.
* `Snapshot.validateStructure_iff`: **what is accepted is well formed**, and
  conversely.
-/

open Fallible

namespace Grading

/-! ### Directories -/

namespace Text

/-- `a` is a proper directory ancestor of `p`: the components of `p` are those
of `a`, and more. -/
def Ancestor (a p : String) : Prop := ∃ rest ≠ [], split p '/' = split a '/' ++ rest

theorem split_of_append {a p : String} {c : Char} {rest : List Char}
    (h : p.toList = a.toList ++ c :: rest) : split p c = split a c ++ split (.ofList rest) c := by
  unfold split
  rw [h, List.splitOn_append_cons_self, List.map_append, String.toList_ofList]

theorem of_mem_parentsRev {l m : List Char} (h : m ∈ parentsRev l) :
    ∃ rest, l.reverse = m ++ '/' :: rest := by
  induction l with
  | nil => cases h
  | cons c l ih =>
    have hlater : m ∈ parentsRev l → ∃ rest, (c :: l).reverse = m ++ '/' :: rest := by
      intro hm
      obtain ⟨rest, hrest⟩ := ih hm
      refine ⟨rest ++ [c], ?_⟩
      rw [List.reverse_cons, hrest, List.append_assoc]
      rfl
    rw [parentsRev] at h
    split at h
    · rename_i hc
      rcases List.mem_cons.mp h with rfl | hm
      · refine ⟨[], ?_⟩
        rw [List.reverse_cons, hc]
      · exact hlater hm
    · exact hlater h

/-- **The texts `rsplit_once` yields on a path are its directory ancestors.** -/
theorem mem_parents_iff {a p : String} : a ∈ parents p ↔ Ancestor a p := by
  constructor
  · intro h
    obtain ⟨m, hm, rfl⟩ := List.mem_map.mp h
    obtain ⟨rest, hrest⟩ := of_mem_parentsRev hm
    rw [List.reverse_reverse] at hrest
    refine ⟨split (.ofList rest) '/', split_ne_nil _ _, split_of_append ?_⟩
    rw [hrest, String.toList_ofList]
  · rintro ⟨rest, hne, hrest⟩
    exact mem_parents_of_split hrest hne

/-- `n` lowercase hexadecimal digits. -/
def Hex (s : String) (n : Nat) : Prop :=
  s.toList.length = n ∧ ∀ c ∈ s.toList, c ∈ "0123456789abcdef".toList

theorem isHexDigit_iff {c : Char} : isHexDigit c = true ↔ c ∈ "0123456789abcdef".toList := by
  constructor
  · intro h
    rw [← Char.ofNat_toNat c]
    simp only [isHexDigit, isAsciiDigit, Bool.or_eq_true, Bool.and_eq_true,
      decide_eq_true_eq] at h
    have hrange : ∀ n < 0x67, (0x30 ≤ n ∧ n ≤ 0x39) ∨ (0x61 ≤ n ∧ n ≤ 0x66) →
        Char.ofNat n ∈ "0123456789abcdef".toList := by
      decide +kernel
    exact hrange _ (by omega) h
  · intro h
    have hall : "0123456789abcdef".toList.all isHexDigit = true := by
      decide +kernel
    exact List.all_eq_true.mp hall c h

theorem validHex_iff {s : String} {n : Nat} : validHex s n = true ↔ Hex s n := by
  rw [validHex, Bool.and_eq_true, decide_eq_true_eq, List.all_eq_true]
  have hlen (h : ∀ c ∈ s.toList, isHexDigit c = true) : len s = s.toList.length := by
    have hs := len_ofList_of_ascii fun c hc => utf8Size_of_isHexDigit (h c hc)
    rw [String.ofList_toList] at hs
    exact hs
  constructor
  · rintro ⟨hn, hall⟩
    exact ⟨(hlen hall).symm.trans hn, fun c hc => isHexDigit_iff.mp (hall c hc)⟩
  · rintro ⟨hn, hall⟩
    have hdigits : ∀ c ∈ s.toList, isHexDigit c = true := fun c hc =>
      isHexDigit_iff.mpr (hall c hc)
    exact ⟨(hlen hdigits).trans hn, hdigits⟩

end Text

/-! ### The files -/

/-- The number of bytes a blob decodes to. -/
def Blob.decodedSize (blob : Blob) : Nat := ((decodeBase64 blob.data.toList).getD []).length

theorem Blob.decodedSize_eq {blob : Blob} {bytes : List UInt8}
    (h : decodeBase64 blob.data.toList = some bytes) : blob.decodedSize = bytes.length := by
  rw [Blob.decodedSize, h, Option.getD_some]

/-- What is asked of one file, whatever the others are. -/
structure FileWellFormed (path : String) (blob : Blob) : Prop where
  path : safePath path = .ok ()
  mode : blob.mode ∈ ["100644", "100755", "120000", "160000"]
  data : ∃ bytes, decodeBase64 blob.data.toList = some bytes ∧ bytes.length ≤ maxFileBytes

theorem gitMode_iff {mode : String} :
    gitMode mode = true ↔ mode ∈ ["100644", "100755", "120000", "160000"] := by
  simp only [gitMode, Bool.or_eq_true, decide_eq_true_eq, List.mem_cons, List.not_mem_nil,
    or_false, or_assoc]

namespace Snapshot

/-- The bytes all files decode to, counted together. -/
def decodedTotal (files : List (String × Blob)) : Nat :=
  (files.map fun e => e.2.decodedSize).sum

theorem decodedTotal_cons (e : String × Blob) (files : List (String × Blob)) :
    decodedTotal (e :: files) = e.2.decodedSize + decodedTotal files := rfl

/-- **What a run over some of the files accepts**: it is well formed, its bytes
fit beside the `size` counted before, and no path lies in a file. -/
theorem validateFiles_iff {files : OrderedMap String Blob} {l : List (String × Blob)} :
    ∀ {size : Nat}, size ≤ maxSnapshotBytes →
    (validateFiles files size l = .ok () ↔
      (∀ path blob, (path, blob) ∈ l → FileWellFormed path blob) ∧
      size + decodedTotal l ≤ maxSnapshotBytes ∧
      ∀ path blob, (path, blob) ∈ l → ∀ a, files.contains a = true → ¬ Text.Ancestor a path) := by
  induction l with
  | nil =>
    intro size hsize
    refine ⟨fun _ => ⟨?_, hsize, ?_⟩, fun _ => rfl⟩
    · intro path blob h
      cases h
    · intro path blob h
      cases h
  | cons e l ih =>
    obtain ⟨path, blob⟩ := e
    intro size hsize
    have hparents : each (fun parent => check (!files.contains parent) "file/directory collision")
        (Text.parents path) = .ok () ↔ ∀ a, files.contains a = true → ¬ Text.Ancestor a path := by
      simp only [each_ok, check_ok, Bool.not_eq_true', Text.mem_parents_iff]
      constructor
      · intro h a hcontains hanc
        rw [h a hanc] at hcontains
        cases hcontains
      · intro h a hanc
        by_contra hcontains
        exact h a (by simpa using hcontains) hanc
    simp only [validateFiles, bind_ok, check_ok, gitMode_iff, Blob.bytes_ok, decide_eq_true_eq,
      decodedTotal_cons]
    constructor
    · rintro ⟨_, hpath, _, hmode, bytes, hdata, _, hfits, _, hfree, hrest⟩
      obtain ⟨hfiles, htotal, hothers⟩ := (ih hfits).mp hrest
      refine ⟨?_, ?_, ?_⟩
      · intro p b h
        rcases List.mem_cons.mp h with h | h
        · cases h
          exact ⟨hpath, hmode, bytes, hdata⟩
        · exact hfiles p b h
      · rw [Blob.decodedSize_eq hdata.1]
        omega
      · intro p b h
        rcases List.mem_cons.mp h with h | h
        · cases h
          exact hparents.mp hfree
        · exact hothers p b h
    · rintro ⟨hfiles, htotal, hfree⟩
      obtain ⟨hpath, hmode, bytes, hdata⟩ := hfiles path blob List.mem_cons_self
      rw [Blob.decodedSize_eq hdata.1] at htotal
      have hfits : size + bytes.length ≤ maxSnapshotBytes := by
        omega
      refine ⟨(), hpath, (), hmode, bytes, hdata, (), hfits, (),
        hparents.mpr (hfree path blob List.mem_cons_self), (ih hfits).mpr ⟨?_, ?_, ?_⟩⟩
      · exact fun p b h => hfiles p b (List.mem_cons_of_mem _ h)
      · omega
      · exact fun p b h => hfree p b (List.mem_cons_of_mem _ h)

/-- A well-formed snapshot. -/
structure WellFormed (snapshot : Snapshot) : Prop where
  sha : Text.Hex snapshot.sha 40
  count : snapshot.files.size ≤ 10000
  paths : ∀ path blob, (path, blob) ∈ snapshot.files.entries → safePath path = .ok ()
  modes : ∀ path blob, (path, blob) ∈ snapshot.files.entries →
    blob.mode ∈ ["100644", "100755", "120000", "160000"]
  data : ∀ path blob, (path, blob) ∈ snapshot.files.entries →
    ∃ bytes, decodeBase64 blob.data.toList = some bytes ∧ bytes.length ≤ 8 * 1024 * 1024
  total : decodedTotal snapshot.files.entries ≤ 64 * 1024 * 1024
  free : ∀ a p, snapshot.files.contains a = true → snapshot.files.contains p = true →
    ¬ Text.Ancestor a p

/-- **`validate_structure` accepts exactly the well-formed snapshots.** -/
theorem validateStructure_iff (snapshot : Snapshot) :
    snapshot.validateStructure = .ok () ↔ snapshot.WellFormed := by
  simp only [validateStructure, bind_ok, check_ok, decide_eq_true_eq, Text.validHex_iff,
    validateFiles_iff (Nat.zero_le _), Nat.zero_add]
  constructor
  · rintro ⟨_, hsha, _, hcount, hfiles, htotal, hfree⟩
    refine ⟨hsha, hcount, fun p b h => (hfiles p b h).path, fun p b h => (hfiles p b h).mode,
      fun p b h => (hfiles p b h).data, htotal, ?_⟩
    intro a p ha hp
    obtain ⟨b, hb⟩ := snapshot.files.contains_iff.mp hp
    exact hfree p b (snapshot.files.mem_entries_iff.mpr hb) a ha
  · intro h
    refine ⟨(), h.sha, (), h.count, ?_, h.total, ?_⟩
    · exact fun p b hmem => ⟨h.paths p b hmem, h.modes p b hmem, h.data p b hmem⟩
    · intro p b hmem a ha
      exact h.free a p ha
        (snapshot.files.contains_iff.mpr ⟨b, snapshot.files.mem_entries_iff.mp hmem⟩)

end Snapshot

end Grading
