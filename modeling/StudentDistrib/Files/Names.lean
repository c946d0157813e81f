import StudentDistrib.Files.Data
import StudentDistrib.Machine.Names
import StudentDistrib.Machine.Scan

/-!
# Names of directory entries

`strncmp` over 32 bytes compares the names in two fields, so that the scan of
`read_dentry_by_name` ends with the last entry of the name asked for.  The name that
`read_dentry_by_index` copies lacks its terminator, and what the destination held
behind it stays there.
-/

namespace StudentDistrib

open Machine

namespace Image

/-! ## `strlen` and `strncmp` -/

theorem strlen_eq (s : Bytes) (n : Nat) : strlen s n = (s.name n).length := by
  induction n generalizing s with
  | zero => rfl
  | succ n ih =>
    rw [strlen, Bytes.name_succ]
    split
    · rfl
    · rw [ih, List.length_cons]

theorem toInt_sub_eq_zero_iff (a b : UInt8) : a.toInt8.toInt - b.toInt8.toInt = 0 ↔ a = b := by
  constructor
  · intro h
    have hint : a.toInt8.toInt = b.toInt8.toInt := by omega
    have hsigned : a.toInt8 = b.toInt8 := Int8.toInt_inj.mp hint
    have hback := congrArg Int8.toUInt8 hsigned
    simpa only [UInt8.toUInt8_toInt8] using hback
  · intro h
    rw [h]
    omega

theorem strncmp_eq_zero_iff (s t : Bytes) (n : Nat) :
    strncmp s t n = 0 ↔ s.name n = t.name n := by
  induction n generalizing s t with
  | zero => simp [strncmp, Bytes.name, Bytes.take]
  | succ n ih =>
    rw [strncmp, Bytes.name_succ, Bytes.name_succ]
    by_cases hdiff : s 0 ≠ t 0 ∨ s 0 = 0
    · rw [if_pos hdiff, toInt_sub_eq_zero_iff]
      by_cases hzero : s 0 = 0
      · by_cases hzero' : t 0 = 0
        · simp [hzero, hzero']
        · have hne : (0 : UInt8) ≠ t 0 := fun h => hzero' h.symm
          simp [hzero, hzero', hne]
      · have hne : s 0 ≠ t 0 := hdiff.resolve_right hzero
        by_cases hzero' : t 0 = 0
        · simp [hzero, hzero']
        · simp [hzero, hzero', hne]
    · obtain ⟨hsame, hzero⟩ : s 0 = t 0 ∧ s 0 ≠ 0 := by simpa only [not_or, not_not] using hdiff
      have hzero' : t 0 ≠ 0 := hsame ▸ hzero
      rw [if_neg hdiff, if_neg hzero, if_neg hzero', ih, List.cons.injEq]
      simp [hsame]

/-! ## The directory -/

def entryName (img : Image) (i : Int) : List UInt8 := (img.entryFilename i).name filenameLen

/-- The last entry of a name. -/
def entryNamed (img : Image) (w : List UInt8) : Option Nat :=
  lastMatch (fun i : Nat => img.entryName i = w) img.numDirectoryEntries.toNat

/-- What the names of a directory are promised to be. -/
structure NamesWellFormed (img : Image) : Prop where
  nonempty : ∀ i : Int, 0 ≤ i → i < img.numDirectoryEntries → img.entryName i ≠ []
  padded : ∀ i : Int, 0 ≤ i → i < img.numDirectoryEntries →
    (img.entryFilename i).Padded filenameLen
  distinct : ∀ i j : Int, 0 ≤ i → i < img.numDirectoryEntries → 0 ≤ j →
    j < img.numDirectoryEntries → img.entryName i = img.entryName j → i = j

theorem findEntry_eq (img : Image) (fname : Bytes) :
    img.findEntry fname = img.entryNamed (fname.name filenameLen) := by
  have hscan : ∀ i : Nat, strncmp fname (img.entryFilename i) filenameLen = 0 ↔
      img.entryName i = fname.name filenameLen := by
    intro i
    rw [strncmp_eq_zero_iff]
    exact eq_comm
  simp only [findEntry, hscan]
  rw [foldl_range_last]
  unfold entryNamed
  cases lastMatch (fun i : Nat => img.entryName i = fname.name filenameLen)
      img.numDirectoryEntries.toNat with
  | none => rfl
  | some i => rfl

theorem entryNamed_lt {img : Image} {w : List UInt8} {i : Nat} (h : img.entryNamed w = some i) :
    (i : Int) < img.numDirectoryEntries := by
  have := (lastMatch_eq_some.mp h).1
  omega

theorem entryNamed_eq_none {img : Image} {w : List UInt8} :
    img.entryNamed w = none ↔
      ∀ i : Int, 0 ≤ i → i < img.numDirectoryEntries → img.entryName i ≠ w := by
  rw [entryNamed, lastMatch_eq_none]
  constructor
  · intro h i h0 hi
    obtain ⟨n, rfl⟩ := Int.eq_ofNat_of_zero_le h0
    exact h n (by omega)
  · intro h n hn
    exact h n (by omega) (by omega)

/-- No entry has a name of more than 32 bytes. -/
theorem entryNamed_of_long (img : Image) {w : List UInt8} (h : filenameLen < w.length) :
    img.entryNamed w = none := by
  refine entryNamed_eq_none.mpr fun i _ _ hw => ?_
  have hle : (img.entryName i).length ≤ filenameLen := Bytes.length_name_le ..
  rw [hw] at hle
  omega

theorem NamesWellFormed.entryNamed_eq {img : Image} (h : img.NamesWellFormed) {i : Nat}
    (hi : (i : Int) < img.numDirectoryEntries) : img.entryNamed (img.entryName i) = some i := by
  refine lastMatch_of_unique (by omega) rfl fun j hj hname => ?_
  have hsame := h.distinct j i (by omega) (by omega) (by omega) hi hname
  omega

/-! ## `read_dentry_by_index` -/

theorem numDirectoryEntries_lt (img : Image) : img.numDirectoryEntries < 2 ^ 31 := by
  unfold numDirectoryEntries int32At i32
  omega

theorem readDentryByIndex_eq {img : Image} {i : Int} (h0 : 0 ≤ i)
    (hi : i < img.numDirectoryEntries) (old : Dentry) :
    img.readDentryByIndex i old = some
      { filename := Bytes.copy (img.entryName i).length (img.entryFilename i) old.filename
        filetype := img.entryFiletype i
        inodeNum := img.entryInode i } := by
  have hcount := img.numDirectoryEntries_lt
  have hindex : ¬ u32 i ≥ u32 img.numDirectoryEntries := by
    rw [u32_of_lt h0 (by omega), u32_of_lt (by omega) (by omega)]
    omega
  simp only [readDentryByIndex, hindex, if_false, strlen_eq]
  rfl

/-- The copy of an entry is its zero-padded name, its type and its inode number. -/
def ExactCopy (img : Image) (i : Int) (old : Dentry) : Prop :=
  ∃ dentry, img.readDentryByIndex i old = some dentry ∧
    dentry.filename.take filenameLen
      = img.entryName i ++ List.replicate (filenameLen - (img.entryName i).length) 0 ∧
    dentry.filetype = img.entryFiletype i ∧ dentry.inodeNum = img.entryInode i

theorem take_copy_name {n : Nat} (src dst : Bytes) :
    (Bytes.copy (src.name n).length src dst).take n
        = src.name n ++ List.replicate (n - (src.name n).length) 0 ↔
      ∀ j : Int, (src.name n).length ≤ j → j < n → dst j = 0 := by
  have hle := Bytes.length_name_le n src
  have hinside : ∀ j : Nat, j < (src.name n).length →
      Bytes.copy (src.name n).length src dst j = src j := by
    intro j hj
    exact Bytes.copy_of_lt src dst (by omega) (by omega)
  have hbehind : ∀ j : Nat, (src.name n).length ≤ j →
      Bytes.copy (src.name n).length src dst j = dst j := by
    intro j hj
    exact if_neg (by omega)
  constructor
  · intro h j hj hn
    obtain ⟨k, rfl⟩ := Int.eq_ofNat_of_zero_le (by omega : 0 ≤ j)
    have hk : k < (Bytes.take n (Bytes.copy (src.name n).length src dst)).length := by
      rw [Bytes.length_take]
      omega
    have hget := List.getElem_of_eq h hk
    rw [List.getElem_append_right (by omega), List.getElem_replicate] at hget
    simp only [Bytes.take, List.getElem_map, List.getElem_range] at hget
    rw [← hbehind k (by omega), hget]
  · intro h
    refine List.ext_getElem ?_ fun k hk hk' => ?_
    · simp only [Bytes.length_take, List.length_append, List.length_replicate]
      omega
    · have hn : k < n := by simpa only [Bytes.length_take] using hk
      simp only [Bytes.take, List.getElem_map, List.getElem_range]
      by_cases hlt : k < (src.name n).length
      · rw [hinside k hlt, List.getElem_append_left hlt, Bytes.getElem_name hlt]
      · rw [hbehind k (by omega), List.getElem_append_right (by omega), List.getElem_replicate]
        exact h k (by omega) (by omega)

theorem ExactCopy.clear {img : Image} {i : Int} (h0 : 0 ≤ i) (hi : i < img.numDirectoryEntries)
    {old : Dentry} (h : img.ExactCopy i old) :
    ∀ j : Int, (img.entryName i).length ≤ j → j < filenameLen → old.filename j = 0 := by
  obtain ⟨dentry, hread, hname, -, -⟩ := h
  rw [readDentryByIndex_eq h0 hi, Option.some.injEq] at hread
  rw [← hread] at hname
  exact (take_copy_name (n := filenameLen) (img.entryFilename i) old.filename).mp hname

/-- The copy is exact where the destination was clear behind the name. -/
theorem exactCopy_iff {img : Image} {i : Int} (h0 : 0 ≤ i) (hi : i < img.numDirectoryEntries)
    (old : Dentry) : img.ExactCopy i old ↔
      ∀ j : Int, (img.entryName i).length ≤ j → j < filenameLen → old.filename j = 0 := by
  constructor
  · intro h
    exact h.clear h0 hi
  · intro h
    have hname := (take_copy_name (n := filenameLen) (img.entryFilename i) old.filename).mpr h
    exact ⟨_, readDentryByIndex_eq h0 hi old, hname, rfl, rfl⟩

/-- Two copies into different destinations hold the same name exactly where the
destinations agree behind it. -/
theorem copies_agree_iff {img : Image} {i : Int} (h0 : 0 ≤ i) (hi : i < img.numDirectoryEntries)
    {old old' dentry dentry' : Dentry} (hread : img.readDentryByIndex i old = some dentry)
    (hread' : img.readDentryByIndex i old' = some dentry') :
    Bytes.SameOn filenameLen dentry.filename dentry'.filename ↔
      ∀ j : Int, (img.entryName i).length ≤ j → j < filenameLen →
        old.filename j = old'.filename j := by
  rw [readDentryByIndex_eq h0 hi, Option.some.injEq] at hread hread'
  have hcopy : ∀ j : Int, ¬ j < (img.entryName i).length →
      dentry.filename j = old.filename j ∧ dentry'.filename j = old'.filename j := by
    intro j hj
    rw [← hread, ← hread']
    exact ⟨if_neg fun h => hj h.2, if_neg fun h => hj h.2⟩
  constructor
  · intro h j hj hlt
    obtain ⟨hold, hold'⟩ := hcopy j (by omega)
    rw [← hold, ← hold']
    exact h j (by omega) hlt
  · intro h j hj hlt
    by_cases hin : j < (img.entryName i).length
    · rw [← hread, ← hread']
      exact (Bytes.copy_of_lt _ _ hj hin).trans (Bytes.copy_of_lt _ _ hj hin).symm
    · obtain ⟨hold, hold'⟩ := hcopy j hin
      rw [hold, hold']
      exact h j (by omega) hlt

theorem shellImage_name : shellImage.entryName 0 = [0x73, 0x68, 0x65, 0x6C, 0x6C] := by decide

/-- A destination full of the letter `x`. -/
def usedDentry : Dentry := { filename := fun _ => 0x78, filetype := 0, inodeNum := 0 }

def clearDentry : Dentry := { filename := fun _ => 0, filetype := 0, inodeNum := 0 }

theorem exactCopy_shell : shellImage.ExactCopy 0 clearDentry :=
  (exactCopy_iff (by decide) (by decide) clearDentry).mpr fun _ _ _ => rfl

/-- The name `shell` copied over other letters is a longer name. -/
theorem copy_keeps_old_bytes : shellImage.WellFormed ∧ ¬ shellImage.ExactCopy 0 usedDentry := by
  refine ⟨shellImage_wellFormed, fun h => ?_⟩
  have hclear := h.clear (by decide) (by decide) 5 (by rw [shellImage_name]; decide) (by decide)
  exact absurd hclear (by decide)

/-! ## `read_dentry_by_name` -/

/-- The string is measured with the memory behind its first 32 bytes. -/
theorem readDentryByName_of_some {img : Image} {fname : Bytes} {i : Nat}
    (hlen : (fname.name 33).length ≤ filenameLen)
    (hfind : img.entryNamed (fname.name filenameLen) = some i) (old : Dentry) :
    img.readDentryByName fname old = img.readDentryByIndex i old := by
  have hshort : ¬ strlen fname 33 > filenameLen := by
    rw [strlen_eq]
    omega
  unfold readDentryByName
  rw [if_neg hshort, findEntry_eq, hfind]

/-- A string that is measured within its array finds the entry that it names. -/
theorem readDentryByName_found {img : Image} {fname : Bytes} {w : List UInt8} {i : Nat}
    (hword : fname.name 33 = w) (hlen : w.length ≤ filenameLen)
    (hfind : img.entryNamed w = some i) (old : Dentry) :
    ∃ dentry, img.readDentryByName fname old = some dentry ∧
      dentry.filetype = img.entryFiletype i ∧ dentry.inodeNum = img.entryInode i := by
  have hname : fname.name filenameLen = w := by
    rw [Bytes.name_of_le (by decide : filenameLen ≤ 33), hword, List.take_of_length_le hlen]
  have hi := entryNamed_lt hfind
  rw [readDentryByName_of_some (hword ▸ hlen) (hname ▸ hfind),
    readDentryByIndex_eq (Int.natCast_nonneg i) hi]
  exact ⟨_, rfl, rfl, rfl⟩

theorem readDentryByName_of_none {img : Image} {fname : Bytes}
    (h : filenameLen < (fname.name 33).length ∨ img.entryNamed (fname.name filenameLen) = none)
    (old : Dentry) : img.readDentryByName fname old = none := by
  unfold readDentryByName
  rw [strlen_eq, findEntry_eq]
  by_cases hlong : filenameLen < (fname.name 33).length
  · rw [if_pos hlong]
  · rw [if_neg hlong, h.resolve_left hlong]

theorem readDentryByName_holds (img : Image) {fname : Bytes} {w : List UInt8} (hw : fname.Holds w)
    (old : Dentry) : img.readDentryByName fname old
      = (img.entryNamed w).bind fun i => img.readDentryByIndex i old := by
  have hmeasured : (fname.name 33).length = min 33 w.length := by
    rw [hw.name_eq, List.length_take]
  have hfield : filenameLen = 32 := rfl
  cases hfind : img.entryNamed w with
  | none =>
    rw [Option.bind_none]
    refine readDentryByName_of_none ?_ old
    by_cases hlong : filenameLen < w.length
    · exact Or.inl (by omega)
    · refine Or.inr ?_
      rw [hw.name_eq, List.take_of_length_le (by omega)]
      exact hfind
  | some i =>
    have hshort : ¬ filenameLen < w.length := by
      intro hlong
      rw [img.entryNamed_of_long hlong] at hfind
      cases hfind
    rw [Option.bind_some]
    refine readDentryByName_of_some (by omega) ?_ old
    rw [hw.name_eq, List.take_of_length_le (by omega)]
    exact hfind

/-- What `read_dentry_by_name` answers for a string that is the name `w`. -/
structure LooksUp (img : Image) (fname : Bytes) (w : List UInt8) (old : Dentry) : Prop where
  found_iff : (img.readDentryByName fname old).isSome ↔
    ∃ i : Int, 0 ≤ i ∧ i < img.numDirectoryEntries ∧ img.entryName i = w
  found : ∀ i : Int, 0 ≤ i → i < img.numDirectoryEntries → img.entryName i = w →
    ∃ dentry, img.readDentryByName fname old = some dentry ∧
      ∀ old', ∃ dentry', img.readDentryByIndex i old' = some dentry' ∧
        dentry'.filetype = dentry.filetype ∧ dentry'.inodeNum = dentry.inodeNum
  long : filenameLen < w.length → img.readDentryByName fname old = none
  /-- A proper prefix or an extension of a name that is not the name of another entry. -/
  near : ∀ i : Int, 0 ≤ i → i < img.numDirectoryEntries → ∀ s, s ≠ [] →
    img.entryName i = w ++ s ∨ w = img.entryName i ++ s →
    (∀ j : Int, 0 ≤ j → j < img.numDirectoryEntries → j ≠ i → img.entryName j ≠ w) →
    img.readDentryByName fname old = none

/-- Names are looked up exactly. -/
theorem looksUp {img : Image} (hnames : img.NamesWellFormed) {fname : Bytes} {w : List UInt8}
    (hw : fname.Holds w) (old : Dentry) : img.LooksUp fname w old := by
  have hread := img.readDentryByName_holds hw old
  have hnone : img.entryNamed w = none → img.readDentryByName fname old = none := by
    intro h
    rw [hread, h]
    rfl
  refine ⟨⟨fun hsome => ?_, fun hex => ?_⟩, fun i h0 hi hname => ?_, fun hlong => ?_,
    fun i h0 hi s hs hnear hother => ?_⟩
  · by_contra hno
    have hempty := hnone (entryNamed_eq_none.mpr fun i h0 hi hname => hno ⟨i, h0, hi, hname⟩)
    rw [hempty] at hsome
    cases hsome
  · obtain ⟨i, h0, hi, rfl⟩ := hex
    obtain ⟨n, rfl⟩ := Int.eq_ofNat_of_zero_le h0
    rw [hread, hnames.entryNamed_eq hi, Option.bind_some, readDentryByIndex_eq h0 hi]
    rfl
  · subst hname
    obtain ⟨n, rfl⟩ := Int.eq_ofNat_of_zero_le h0
    rw [hread, hnames.entryNamed_eq hi, Option.bind_some, readDentryByIndex_eq h0 hi]
    exact ⟨_, rfl, fun old' => ⟨_, readDentryByIndex_eq h0 hi old', rfl, rfl⟩⟩
  · exact hnone (img.entryNamed_of_long hlong)
  · refine hnone (entryNamed_eq_none.mpr fun j hj0 hj hname => ?_)
    by_cases hji : j = i
    · have hlen : s.length ≠ 0 := fun h => hs (List.eq_nil_of_length_eq_zero h)
      subst hji
      rw [hname] at hnear
      cases hnear with
      | inl h =>
        have := congrArg List.length h
        rw [List.length_append] at this
        omega
      | inr h =>
        have := congrArg List.length h
        rw [List.length_append] at this
        omega
    · exact hother j hj0 hj hji hname

/-! ## The copy in memory

The source measures the name with a `strlen` that does not stop at the field's end, and
copies as many bytes before it assigns the two fields behind the name. -/

/-- `strncpy`. -/
def strncpy (dst src : Bytes) (n : Nat) : Bytes := fun i =>
  if 0 ≤ i ∧ i < n then if i < strlen src n then src i else 0 else dst i

/-- The destination of `read_dentry_by_index` as memory, where `n` bytes are copied. -/
def copyDentry (img : Image) (index : Int) (n : Nat) (dst : Bytes) : Bytes := fun i =>
  if 32 ≤ i ∧ i < 40 then img.entryFilename index i
  else strncpy dst (img.entryFilename index) n i

/-- `dentry_t` in memory. -/
def dentryAt (m : Bytes) : Dentry :=
  { filename := m, filetype := int32At m 32, inodeNum := int32At m 36 }

/-- The same entry, whatever lies behind the name's field. -/
structure Dentry.Same (d d' : Dentry) : Prop where
  filename : Bytes.SameOn filenameLen d.filename d'.filename
  filetype : d.filetype = d'.filetype
  inodeNum : d.inodeNum = d'.inodeNum

/-- The value of `strlen`. -/
def StrlenIs (s : Bytes) (n : Nat) : Prop := (∀ i : Int, 0 ≤ i → i < n → s i ≠ 0) ∧ s n = 0

/-- A name that fills its field is measured into the type behind it, which has a zero
byte. -/
theorem WellFormed.strlen_filename {img : Image} (hwf : img.WellFormed) {i : Int} (h0 : 0 ≤ i)
    (hi : i < img.numDirectoryEntries) :
    ∃ n, n ≤ 33 ∧ StrlenIs (img.entryFilename i) n := by
  have hzero : img.entryFilename i (33 : Nat) = 0 := by
    have htype := hwf.types i h0 hi
    have hb₀ := (img (entryAddr i + 32)).toNat_lt
    have hb₁ := (img (entryAddr i + 32 + 1)).toNat_lt
    have hb₂ := (img (entryAddr i + 32 + 2)).toNat_lt
    have hb₃ := (img (entryAddr i + 32 + 3)).toNat_lt
    have haddr : entryAddr i + 32 + 1 = entryAddr i + (33 : Nat) := by omega
    simp only [entryFiletype, int32At, i32, word] at htype
    have hbyte : (img (entryAddr i + 32 + 1)).toNat = 0 := by omega
    rw [haddr] at hbyte
    exact UInt8.toNat_inj.mp hbyte
  have hname := Bytes.length_name_le 34 (img.entryFilename i)
  have hshort : ((img.entryFilename i).name 34).length < 34 := by
    by_contra hlong
    have hget := Bytes.getElem_name (n := 34) (i := 33) (m := img.entryFilename i) (by omega)
    have hmem := List.getElem_mem (l := (img.entryFilename i).name 34) (n := 33) (by omega)
    rw [hget] at hmem
    exact Bytes.ne_zero_of_mem_name hmem hzero
  refine ⟨((img.entryFilename i).name 34).length, by omega, fun j hj0 hj => ?_,
    Bytes.apply_length_name hshort⟩
  obtain ⟨k, rfl⟩ := Int.eq_ofNat_of_zero_le hj0
  have hk : k < ((img.entryFilename i).name 34).length := by omega
  have hmem := List.getElem_mem hk
  rw [Bytes.getElem_name hk] at hmem
  exact Bytes.ne_zero_of_mem_name hmem

theorem StrlenIs.name_eq {s : Bytes} {n : Nat} (h : StrlenIs s n) (m : Nat) :
    s.name m = (Bytes.take n s).take m := by
  have hholds : s.Holds (Bytes.take n s) := by
    refine ⟨fun b hb => ?_, ?_, ?_⟩
    · simp only [Bytes.take, List.mem_map, List.mem_range] at hb
      obtain ⟨i, hi, rfl⟩ := hb
      exact h.1 i (by omega) (by omega)
    · rw [Bytes.length_take]
    · rw [Bytes.length_take]
      exact h.2
  exact hholds.name_eq m

theorem int32At_copyDentry {img : Image} {i a : Int} (n : Nat) (dst : Bytes) (h : 32 ≤ a)
    (h' : a + 4 ≤ 40) : int32At (img.copyDentry i n dst) a = img.int32At (entryAddr i + a) := by
  have hbyte : ∀ d : Int, 0 ≤ d → d < 4 →
      img.copyDentry i n dst (a + d) = img (entryAddr i + a + d) := by
    intro d hd hd'
    rw [copyDentry, if_pos (by omega), entryFilename, Int.add_assoc]
  have hfirst := hbyte 0 (by omega) (by omega)
  rw [Int.add_zero, Int.add_zero] at hfirst
  simp only [int32At, word, hfirst, hbyte 1 (by omega) (by omega), hbyte 2 (by omega) (by omega),
    hbyte 3 (by omega) (by omega)]

theorem copyDentry_eq {img : Image} {i : Int} {n : Nat} (hn : StrlenIs (img.entryFilename i) n)
    (dst : Bytes) (h0 : 0 ≤ i) (hi : i < img.numDirectoryEntries) :
    ∃ dentry, img.readDentryByIndex i (dentryAt dst) = some dentry ∧
      (dentryAt (img.copyDentry i n dst)).Same dentry := by
  have hname : (img.entryName i).length = min filenameLen n := by
    rw [entryName, hn.name_eq, List.length_take, Bytes.length_take]
  have hstrlen : strlen (img.entryFilename i) n = n := by
    rw [strlen_eq, hn.name_eq, List.length_take, Bytes.length_take, Nat.min_self]
  refine ⟨_, readDentryByIndex_eq h0 hi _, fun j hj0 hj => ?_, ?_, ?_⟩
  · have hlen : filenameLen = 32 := rfl
    have hfield : ¬ (32 ≤ j ∧ j < 40) := by omega
    simp only [dentryAt, copyDentry, strncpy, hfield, if_false, hstrlen, Bytes.copy, hname]
    by_cases hin : j < n
    · rw [if_pos ⟨hj0, hin⟩, if_pos hin, if_pos ⟨hj0, by omega⟩]
    · rw [if_neg (by omega), if_neg (by omega)]
  · exact int32At_copyDentry n dst (by omega) (by omega)
  · exact int32At_copyDentry n dst (by omega) (by omega)

/-- What the source leaves in memory is the entry that `readDentryByIndex` returns. -/
theorem WellFormed.copyDentry {img : Image} (hwf : img.WellFormed) {i : Int} (h0 : 0 ≤ i)
    (hi : i < img.numDirectoryEntries) :
    ∃ n, StrlenIs (img.entryFilename i) n ∧ ∀ dst, ∃ dentry,
      img.readDentryByIndex i (dentryAt dst) = some dentry ∧
      (dentryAt (img.copyDentry i n dst)).Same dentry := by
  obtain ⟨n, -, hn⟩ := hwf.strlen_filename h0 hi
  exact ⟨n, hn, fun dst => copyDentry_eq hn dst h0 hi⟩

end Image

/-! ## An image with a second entry -/

/-- The program `shell` and an entry of another name and type with the same inode. -/
def besideShell (name : List UInt8) (filetype : UInt8) : Image := fun a =>
  if a = 0 then 2
  else if 128 ≤ a ∧ a < 160 then Bytes.ofList name (a - 128)
  else if a = 160 then filetype
  else shellImage a

section BesideShell

variable (name : List UInt8) (filetype : UInt8)

theorem int32At_eq {img : Image} {a n : Int} (h : img.word a = n) (h0 : 0 ≤ n) (hn : n < 2 ^ 31) :
    img.int32At a = n := by
  rw [Image.int32At, h]
  exact i32_of_lt (by omega) hn

theorem besideShell_entries : (besideShell name filetype).numDirectoryEntries = 2 :=
  int32At_eq rfl (by omega) (by omega)

theorem besideShell_inode : (besideShell name filetype).entryInode 0 = 0 ∧
    (besideShell name filetype).entryInode 1 = 0 :=
  ⟨int32At_eq rfl (by omega) (by omega), int32At_eq rfl (by omega) (by omega)⟩

theorem besideShell_length : (besideShell name filetype).inodeLength 0 = 40 :=
  int32At_eq rfl (by omega) (by omega)

theorem besideShell_inodes : (besideShell name filetype).numInodes = 1 :=
  int32At_eq rfl (by omega) (by omega)

theorem besideShell_block : (besideShell name filetype).blockNum 0 0 = 0 :=
  int32At_eq rfl (by omega) (by omega)

theorem besideShell_magic :
    (besideShell name filetype).fileBytes 0 0 4 = [0x7F, 0x45, 0x4C, 0x46] := by
  have hsize : blockSize = 4096 := rfl
  have hdata : (besideShell name filetype).dataAddr = 8192 := by
    rw [Image.dataAddr, besideShell_inodes, hsize]
    omega
  have hbyte : ∀ k : Int, 0 ≤ k → k < 4096 →
      (besideShell name filetype).fileByte 0 k = besideShell name filetype (8192 + k) := by
    intro k h0 hk
    have hidx : k / blockSize = 0 := by
      rw [hsize]
      omega
    have hoffset : k % blockSize = k := by
      rw [hsize]
      omega
    rw [Image.fileByte, hidx, hoffset, besideShell_block, hdata, Int.mul_zero, Int.add_zero]
  have hbytes : (besideShell name filetype).fileBytes 0 0 4 =
      [(besideShell name filetype).fileByte 0 0, (besideShell name filetype).fileByte 0 1,
        (besideShell name filetype).fileByte 0 2, (besideShell name filetype).fileByte 0 3] := rfl
  rw [hbytes, hbyte 0 (by omega) (by omega), hbyte 1 (by omega) (by omega),
    hbyte 2 (by omega) (by omega), hbyte 3 (by omega) (by omega)]
  rfl

variable {name filetype}

theorem besideShell_filetype (h : filetype.toNat < 3) :
    (besideShell name filetype).entryFiletype 1 = filetype.toNat := by
  have hword : (besideShell name filetype).word (Image.entryAddr 1 + 32)
      = filetype.toNat + 256 * 0 + 65536 * 0 + 16777216 * 0 := rfl
  exact int32At_eq (hword.trans (by omega)) (by omega) (by omega)

theorem besideShell_wellFormed (h : filetype.toNat < 3) :
    (besideShell name filetype).WellFormed := by
  have hfirst : (besideShell name filetype).entryFiletype 0 = 2 :=
    int32At_eq rfl (by omega) (by omega)
  have hinodes : (besideShell name filetype).numInodes = 1 := besideShell_inodes _ _
  have hblocks : (besideShell name filetype).numDataBlocks = 1 :=
    int32At_eq rfl (by omega) (by omega)
  have hentry : ∀ i : Int, 0 ≤ i → i < (besideShell name filetype).numDirectoryEntries →
      i = 0 ∨ i = 1 := by
    intro i h0 hi
    rw [besideShell_entries] at hi
    omega
  have hsize : blockSize = 4096 := rfl
  refine ⟨by omega, fun i h0 hi => ?_, fun i h0 hi _ => ?_, fun n h0 hn => ?_,
    fun n k h0 hn hk0 hk => ?_⟩
  · cases hentry i h0 hi with
    | inl hi =>
      rw [hi, hfirst]
      omega
    | inr hi =>
      rw [hi, besideShell_filetype h]
      omega
  · rw [hinodes]
    cases hentry i h0 hi with
    | inl hi =>
      rw [hi, (besideShell_inode _ _).1]
      omega
    | inr hi =>
      rw [hi, (besideShell_inode _ _).2]
      omega
  · have hn0 : n = 0 := by omega
    rw [hn0, besideShell_length, hsize]
    omega
  · have hn0 : n = 0 := by omega
    rw [hn0, besideShell_length, hsize] at hk
    have hk' : k = 0 := by omega
    rw [hn0, hk', besideShell_block, hblocks]
    omega

theorem besideShell_name_zero :
    (besideShell name filetype).entryName 0 = [0x73, 0x68, 0x65, 0x6C, 0x6C] := rfl

theorem besideShell_byte {j : Int} (h0 : 0 ≤ j) (hj : j < 32) :
    (besideShell name filetype).entryFilename 1 j = Bytes.ofList name j := by
  have haddr : Image.entryAddr 1 = 128 := rfl
  have hoffset : 128 + j - 128 = j := by omega
  rw [Image.entryFilename, haddr, besideShell, if_neg (by omega), if_pos (by omega), hoffset]

theorem besideShell_name_one (hname : ∀ b ∈ name, b ≠ 0) (hlen : name.length ≤ filenameLen) :
    (besideShell name filetype).entryName 1 = name := by
  have hsize : filenameLen = 32 := rfl
  refine Bytes.name_eq hname ?_ hlen fun hlt => ?_
  · have hsame : Bytes.SameOn name.length ((besideShell name filetype).entryFilename 1)
        (Bytes.ofList name) := by
      intro i h0 hi
      exact besideShell_byte h0 (by omega)
    rw [hsame.take_eq, Bytes.take_ofList]
  · rw [besideShell_byte (by omega) (by omega)]
    exact Bytes.ofList_of_le (Int.le_refl _)

/-- The shell is found whatever the second entry is. -/
theorem besideShell_shell (hname : ∀ b ∈ name, b ≠ 0) (hlen : name.length ≤ filenameLen)
    (hother : name ≠ [0x73, 0x68, 0x65, 0x6C, 0x6C]) :
    (besideShell name filetype).entryNamed [0x73, 0x68, 0x65, 0x6C, 0x6C] = some 0 := by
  have hcount : (besideShell name filetype).numDirectoryEntries = 2 := besideShell_entries _ _
  refine lastMatch_of_unique (by omega) besideShell_name_zero fun j hj hmatch => ?_
  by_contra hne
  have hj' : j = 1 := by omega
  rw [hj'] at hmatch
  exact hother ((besideShell_name_one hname hlen).symm.trans hmatch)

theorem besideShell_second (hname : ∀ b ∈ name, b ≠ 0) (hlen : name.length ≤ filenameLen) :
    (besideShell name filetype).entryNamed name = some 1 := by
  have hcount : (besideShell name filetype).numDirectoryEntries = 2 := besideShell_entries _ _
  refine lastMatch_eq_some.mpr ⟨by omega, besideShell_name_one hname hlen, fun j hj hj' => ?_⟩
  omega

/-- The second entry is found under its name. -/
theorem besideShell_found (htype : filetype.toNat < 3) (hname : ∀ b ∈ name, b ≠ 0)
    (hlen : name.length ≤ filenameLen) {fname : Bytes} (hword : fname.name 33 = name)
    (old : Image.Dentry) :
    ∃ dentry, (besideShell name filetype).readDentryByName fname old = some dentry ∧
      dentry.filetype = filetype.toNat ∧ dentry.inodeNum = 0 := by
  have hfound : (besideShell name filetype).entryNamed name = some 1 :=
    besideShell_second hname hlen
  obtain ⟨dentry, hread, hfiletype, hinode⟩ :=
    Image.readDentryByName_found hword hlen hfound old
  rw [Int.natCast_one, besideShell_filetype htype] at hfiletype
  rw [Int.natCast_one, (besideShell_inode _ _).2] at hinode
  exact ⟨dentry, hread, hfiletype, hinode⟩

theorem besideShell_names (hname : ∀ b ∈ name, b ≠ 0) (hlen : name.length ≤ filenameLen)
    (hne : name ≠ []) (hother : name ≠ [0x73, 0x68, 0x65, 0x6C, 0x6C]) :
    (besideShell name filetype).NamesWellFormed := by
  have hfield : filenameLen = 32 := rfl
  have hentry : ∀ i : Int, 0 ≤ i → i < (besideShell name filetype).numDirectoryEntries →
      i = 0 ∨ i = 1 := by
    intro i h0 hi
    rw [besideShell_entries] at hi
    omega
  have hone : (besideShell name filetype).entryName 1 = name := besideShell_name_one hname hlen
  refine ⟨fun i h0 hi => ?_, fun i h0 hi => ?_, fun i j h0 hi hj0 hj hsame => ?_⟩
  · rcases hentry i h0 hi with rfl | rfl
    · rw [besideShell_name_zero]
      exact List.cons_ne_nil _ _
    · rw [hone]
      exact hne
  · intro j hj hlt
    rcases hentry i h0 hi with rfl | rfl
    · have hlen : (Bytes.name filenameLen ((besideShell name filetype).entryFilename 0)).length
          = 5 := rfl
      have haddr : Image.entryAddr 0 = 64 := by decide
      rw [hlen] at hj
      unfold Image.entryFilename besideShell shellImage
      rw [haddr, if_neg (by omega), if_neg (by omega), if_neg (by omega), if_neg (by omega),
        if_neg (by omega), if_neg (by omega), if_neg (by omega), if_neg (by omega)]
    · have hshort : Bytes.name filenameLen ((besideShell name filetype).entryFilename 1) = name :=
        hone
      rw [hshort] at hj
      rw [besideShell_byte (by omega) (by omega)]
      exact Bytes.ofList_of_le hj
  · rcases hentry i h0 hi with rfl | rfl <;> rcases hentry j hj0 hj with rfl | rfl
    · rfl
    · exact absurd (hone.symm.trans hsame.symm) hother
    · exact absurd (hone.symm.trans hsame) hother
    · rfl

end BesideShell

/-- The shell is looked up beside a program `she`. -/
theorem Image.looksUp_shell : (besideShell [0x73, 0x68, 0x65] 2).LooksUp shellName
    [0x73, 0x68, 0x65, 0x6C, 0x6C] clearDentry :=
  Image.looksUp (besideShell_names (by simp) (by decide) (by simp) (by decide))
    (Bytes.holds_ofList (by simp)) clearDentry

/-! ## An image with a program that is too large -/

/-- The program `shell` and a program `big` of 954 blocks, each of them the same block. -/
def bigImage : Image := fun a =>
  if a = 0 ∨ a = 4 then 2
  else if a = 8 then 1
  else if 64 ≤ a ∧ a < 69 then Bytes.ofList [0x73, 0x68, 0x65, 0x6C, 0x6C] (a - 64)
  else if a = 96 then 2
  else if 128 ≤ a ∧ a < 131 then Bytes.ofList [0x62, 0x69, 0x67] (a - 128)
  else if a = 160 then 2
  else if a = 164 then 1
  else if a = 4096 then 40
  else if a = 8193 then 0xA0
  else if a = 8194 then 0x3B
  else if 12288 ≤ a ∧ a < 12292 then Bytes.ofList [0x7F, 0x45, 0x4C, 0x46] (a - 12288)
  else 0

theorem bigImage_entries : bigImage.numDirectoryEntries = 2 := by decide

theorem bigImage_inodes : bigImage.numInodes = 2 := by decide

theorem bigImage_length : bigImage.inodeLength 0 = 40 ∧ bigImage.inodeLength 1 = 954 * 4096 := by
  decide

theorem bigImage_inode : bigImage.entryInode 0 = 0 ∧ bigImage.entryInode 1 = 1 := by decide

/-- Every block of the two files is the first one. -/
theorem bigImage_block {inode k : Int} (h0 : 0 ≤ inode) (hinode : inode < 2) (hk0 : 0 ≤ k)
    (hk : k < 954) : bigImage.blockNum inode k = 0 := by
  have hzero : ∀ a : Int, 4100 ≤ a → a < 12288 → a ≠ 8193 → a ≠ 8194 → bigImage a = 0 := by
    intro a hlow hhigh h93 h94
    unfold bigImage
    rw [if_neg (by omega), if_neg (by omega), if_neg (by omega), if_neg (by omega),
      if_neg (by omega), if_neg (by omega), if_neg (by omega), if_neg (by omega), if_neg h93,
      if_neg h94, if_neg (by omega)]
  have haddr : 4100 ≤ Image.inodeAddr inode + 4 + 4 * k ∧
      Image.inodeAddr inode + 4 + 4 * k + 3 < 12288 ∧
      ∀ j : Int, 0 ≤ j → j ≤ 3 → Image.inodeAddr inode + 4 + 4 * k + j ≠ 8193 ∧
        Image.inodeAddr inode + 4 + 4 * k + j ≠ 8194 := by
    unfold Image.inodeAddr blockSize
    exact ⟨by omega, by omega, fun j hj0 hj => ⟨by omega, by omega⟩⟩
  obtain ⟨hlow, hhigh, hne⟩ := haddr
  generalize hword : Image.inodeAddr inode + 4 + 4 * k = a at hlow hhigh hne
  have hbyte : ∀ j : Int, 0 ≤ j → j ≤ 3 → bigImage (a + j) = 0 := fun j h0 h3 =>
    hzero _ (by omega) (by omega) (hne j h0 h3).1 (hne j h0 h3).2
  have hfirst := hbyte 0 (by omega) (by omega)
  rw [Int.add_zero] at hfirst
  refine int32At_eq ?_ (by omega) (by omega)
  rw [hword, Image.word, hfirst, hbyte 1 (by omega) (by omega), hbyte 2 (by omega) (by omega),
    hbyte 3 (by omega) (by omega)]
  rfl

theorem bigImage_wellFormed : bigImage.WellFormed := by
  have htype : bigImage.entryFiletype 0 = 2 ∧ bigImage.entryFiletype 1 = 2 := by decide
  have hblocks : bigImage.numDataBlocks = 1 := by decide
  have htwo : ∀ i : Int, 0 ≤ i → i < 2 → i = 0 ∨ i = 1 := by
    intro i h0 hi
    omega
  have hsize : blockSize = 4096 := rfl
  refine ⟨?_, fun i h0 hi => ?_, fun i h0 hi _ => ?_, fun n h0 hn => ?_,
    fun n k h0 hn hk0 hk => ?_⟩
  · rw [bigImage_inodes]
    omega
  · rw [bigImage_entries] at hi
    rcases htwo i h0 hi with rfl | rfl
    · exact Or.inr (Or.inr htype.1)
    · exact Or.inr (Or.inr htype.2)
  · rw [bigImage_entries] at hi
    rw [bigImage_inodes]
    rcases htwo i h0 hi with rfl | rfl
    · rw [bigImage_inode.1]
      omega
    · rw [bigImage_inode.2]
      omega
  · rw [bigImage_inodes] at hn
    rw [hsize]
    rcases htwo n h0 hn with rfl | rfl
    · rw [bigImage_length.1]
      omega
    · rw [bigImage_length.2]
      omega
  · rw [bigImage_inodes] at hn
    have hk' : k < 954 := by
      rw [hsize] at hk
      rcases htwo n h0 hn with rfl | rfl
      · rw [bigImage_length.1] at hk
        omega
      · rw [bigImage_length.2] at hk
        omega
    rw [bigImage_block h0 hn hk0 hk', hblocks]
    omega

/-- Both files start with the magic number. -/
theorem bigImage_magic {inode : Int} (h0 : 0 ≤ inode) (hinode : inode < 2) :
    bigImage.fileBytes inode 0 4 = [0x7F, 0x45, 0x4C, 0x46] := by
  have hsize : blockSize = 4096 := rfl
  have hdata : bigImage.dataAddr = 12288 := by
    rw [Image.dataAddr, bigImage_inodes, hsize]
    omega
  have hbyte : ∀ k : Int, 0 ≤ k → k < 4096 → bigImage.fileByte inode k = bigImage (12288 + k) := by
    intro k hk0 hk
    have hidx : k / blockSize = 0 := by
      rw [hsize]
      omega
    have hoffset : k % blockSize = k := by
      rw [hsize]
      omega
    rw [Image.fileByte, hidx, hoffset, bigImage_block h0 hinode (by omega) (by omega), hdata,
      Int.mul_zero, Int.add_zero]
  have hbytes : bigImage.fileBytes inode 0 4 = [bigImage.fileByte inode 0, bigImage.fileByte inode 1,
      bigImage.fileByte inode 2, bigImage.fileByte inode 3] := rfl
  rw [hbytes, hbyte 0 (by omega) (by omega), hbyte 1 (by omega) (by omega),
    hbyte 2 (by omega) (by omega), hbyte 3 (by omega) (by omega)]
  decide

theorem bigImage_named : bigImage.entryNamed [0x73, 0x68, 0x65, 0x6C, 0x6C] = some 0 ∧
    bigImage.entryNamed [0x62, 0x69, 0x67] = some 1 := by decide

end StudentDistrib
