import StudentDistrib.Files.Names
import StudentDistrib.Kernel.FileReads

/-!
# Listing a directory

A read of a directory delivers the whole name of the entry at the descriptor's
position, whatever number of bytes it is asked for, and moves on to the next entry.
Past the last entry it delivers nothing and starts again.  The position lies in the
descriptor, so that nothing else that the process or the machine does in between has a
part in the listing.
-/

namespace StudentDistrib

open Machine

namespace Image

/-- What a read at a position of a directory delivers. -/
def nameAt (img : Image) (pos : Int) : List UInt8 :=
  if 0 ≤ pos ∧ pos < img.numDirectoryEntries then img.entryName pos else []

def nextPosition (img : Image) (pos : Int) : Int :=
  if 0 ≤ pos ∧ pos < img.numDirectoryEntries then pos + 1 else 0

/-- The `n`th result of the reads of a directory: the names in turn, then nothing, and
so on. -/
def enumerated (img : Image) (n : Nat) : List UInt8 :=
  img.nameAt (n % (img.numDirectoryEntries.toNat + 1) : Nat)

theorem enumerated_of_lt {img : Image} {n : Nat}
    (h : n % (img.numDirectoryEntries.toNat + 1) < img.numDirectoryEntries.toNat) :
    img.enumerated n = img.entryName (n % (img.numDirectoryEntries.toNat + 1) : Nat) := by
  have hin : (0 : Int) ≤ (n % (img.numDirectoryEntries.toNat + 1) : Nat) ∧
      ((n % (img.numDirectoryEntries.toNat + 1) : Nat) : Int) < img.numDirectoryEntries := by
    generalize n % (img.numDirectoryEntries.toNat + 1) = r at h ⊢
    omega
  rw [enumerated, nameAt, if_pos hin]

theorem enumerated_of_eq {img : Image} {n : Nat}
    (h : n % (img.numDirectoryEntries.toNat + 1) = img.numDirectoryEntries.toNat) :
    img.enumerated n = [] := by
  rw [enumerated, nameAt, h, if_neg (by omega)]

theorem nextPosition_mod {img : Image} (h : 0 ≤ img.numDirectoryEntries) (n : Nat) :
    img.nextPosition (n % (img.numDirectoryEntries.toNat + 1) : Nat)
      = ((n + 1) % (img.numDirectoryEntries.toNat + 1) : Nat) := by
  obtain ⟨m, hm⟩ := Int.eq_ofNat_of_zero_le h
  have hlt : n % (m + 1) < m + 1 := Nat.mod_lt n (Nat.succ_pos m)
  unfold nextPosition
  rw [hm, Int.toNat_natCast, ← Nat.mod_add_mod]
  generalize n % (m + 1) = r at hlt ⊢
  by_cases hlast : r = m
  · rw [if_neg (by omega), hlast, Nat.mod_self]
    rfl
  · rw [if_pos (by omega), Nat.mod_eq_of_lt (by omega)]
    rfl

end Image

namespace PCB

/-- The descriptor is an open directory at `pos`. -/
structure Listing (fd pos : Int) (pcb : PCB) : Prop where
  range : 2 ≤ fd ∧ fd ≤ 7
  flags : (pcb.fdArray fd).flags = full
  driver : (pcb.fdArray fd).jumpTable = some .directory
  position : (pcb.fdArray fd).filePosition = pos
  index : pcb.openIndexes (fd - 2) = full

variable {pcb pcb' : PCB} {fd pos : Int}

theorem Listing.of_eq (h : pcb.Listing fd pos) (hfd : pcb'.fdArray fd = pcb.fdArray fd)
    (hindex : pcb'.openIndexes (fd - 2) = pcb.openIndexes (fd - 2)) : pcb'.Listing fd pos := by
  obtain ⟨hrange, hflags, hdriver, hposition, hfull⟩ := h
  exact ⟨hrange, hfd ▸ hflags, hfd ▸ hdriver, hfd ▸ hposition, hindex ▸ hfull⟩

theorem Listing.setEntry_of_ne (h : pcb.Listing fd pos) {i index : Int} {d : FileDescriptor}
    (hne : fd ≠ i + 2) : (pcb.setEntry i index d).Listing fd pos := by
  have hindex : fd - 2 ≠ i := by omega
  exact h.of_eq (Function.update_of_ne hne ..) (Function.update_of_ne hindex ..)

theorem Listing.setPosition_of_ne (h : pcb.Listing fd pos) {fd' pos' : Int} (hne : fd ≠ fd') :
    (pcb.setPosition fd' pos').Listing fd pos :=
  h.of_eq (setPosition_fdArray_of_ne hne) rfl

theorem Listing.setPosition (h : pcb.Listing fd pos) (pos' : Int) :
    (pcb.setPosition fd pos').Listing fd pos' := by
  obtain ⟨hflags, hdriver, -⟩ := setPosition_fdArray pcb fd fd pos'
  refine ⟨h.range, hflags.trans h.flags, hdriver.trans h.driver, ?_, h.index⟩
  simp [PCB.setPosition]

theorem listing_setEntry {i inode : Int} (h0 : 0 ≤ i) (hi : i < 6) :
    (pcb.setEntry i full
      { jumpTable := some .directory, inodeCheck := inode, filePosition := 0, flags := full }
    ).Listing (i + 2) 0 := by
  have hindex : i + 2 - 2 = i := by omega
  refine ⟨by omega, ?_, ?_, ?_, ?_⟩
  all_goals simp [setEntry, hindex]

end PCB

namespace Kernel

variable {k k' : Kernel} {p : Pid} {fd pos : Int}

/-! ## One read -/

/-- A read of a directory. -/
theorem read_listing (h : k.callerPcb.Listing fd pos) (nbytes : Int) :
    (k.read fd nbytes).2 = .value (k.img.nameAt pos).length (k.img.nameAt pos) ∧
      (k.read fd nbytes).1.tab.pcb = Function.update k.tab.pcb k.currPid
        (k.callerPcb.setPosition fd (k.img.nextPosition pos)) := by
  have hpcb : k.sti.setCurrPcb.callerPcb = k.callerPcb := rfl
  have himg : k.sti.setCurrPcb.img = k.img := rfl
  have hrange := h.range
  have hread : k.read fd nbytes = k.sti.setCurrPcb.readDirectory fd := by
    unfold read
    rw [if_neg (by omega), if_neg (by omega)]
    dsimp only
    rw [hpcb, if_pos h.flags, h.driver]
  rw [hread]
  unfold readDirectory
  dsimp only
  rw [hpcb, himg, if_pos h.flags, h.position]
  unfold Image.nameAt Image.nextPosition
  by_cases hin : 0 ≤ pos ∧ pos < k.img.numDirectoryEntries
  · have hname : (k.img.entryFilename pos).take (Image.strlen (k.img.entryFilename pos) filenameLen)
        = k.img.entryName pos := by
      rw [Image.strlen_eq]
      exact Bytes.take_name filenameLen (k.img.entryFilename pos)
    rw [if_neg (by omega), if_pos hin, if_pos hin, hname]
    exact ⟨rfl, rfl⟩
  · rw [if_pos (by omega), if_neg hin, if_neg hin]
    exact ⟨rfl, rfl⟩

/-- The read delivers no more than it is asked for, and the first bytes of the name. -/
def HonoursCount (k : Kernel) (fd nbytes : Int) : Prop :=
  ∃ v stored, (k.read fd nbytes).2 = .value v stored ∧ v ≤ nbytes ∧ stored.length ≤ nbytes ∧
    ∀ pos, pos = (k.callerPcb.fdArray fd).filePosition → 0 ≤ pos →
      pos < k.img.numDirectoryEntries → stored = (k.img.entryName pos).take nbytes.toNat

theorem HonoursCount.fits (h : k.callerPcb.Listing fd pos) {nbytes : Int}
    (hcount : k.HonoursCount fd nbytes) :
    pos < 0 ∨ k.img.numDirectoryEntries ≤ pos ∨ (k.img.entryName pos).length ≤ nbytes := by
  obtain ⟨v, stored, hvalue, -, hlen, -⟩ := hcount
  rw [(read_listing h nbytes).1] at hvalue
  injection hvalue with hv hstored
  by_cases hin : 0 ≤ pos ∧ pos < k.img.numDirectoryEntries
  · rw [← hstored, Image.nameAt, if_pos hin] at hlen
    exact Or.inr (Or.inr hlen)
  · omega

theorem honoursCount_iff (h : k.callerPcb.Listing fd pos) {nbytes : Int} (hn : 0 ≤ nbytes) :
    k.HonoursCount fd nbytes ↔
      pos < 0 ∨ k.img.numDirectoryEntries ≤ pos ∨ (k.img.entryName pos).length ≤ nbytes := by
  have hread := (read_listing h nbytes).1
  constructor
  · intro hcount
    exact hcount.fits h
  · intro hfits
    have hlen : ((k.img.nameAt pos).length : Int) ≤ nbytes := by
      unfold Image.nameAt
      split
      · omega
      · simpa using hn
    refine ⟨_, _, hread, hlen, hlen, fun pos' hpos' h0 hlt => ?_⟩
    rw [h.position] at hpos'
    subst hpos'
    have hname : k.img.nameAt pos' = k.img.entryName pos' := if_pos ⟨h0, hlt⟩
    rw [hname] at hlen ⊢
    rw [List.take_of_length_le (by omega)]

/-! ## A run of reads -/

/-- What process `p` gets from its reads of descriptor `fd`. -/
def noteReads (p : Pid) (fd : Int) (k : Kernel) (e : Event) (_ : Kernel) (h : List Returned) :
    List Returned :=
  match e with
  | .read fd' nbytes => if k.currPid = p ∧ fd' = fd then h ++ [(k.read fd nbytes).2] else h
  | _ => h

/-- Process `p` keeps descriptor `fd` open. -/
def KeepsOpen (p : Pid) (fd : Int) (k : Kernel) (e : Event) : Prop :=
  ¬ k.Restarts e p ∧ ¬ (k.currPid = p ∧ e = .closeFile fd)

theorem step_read (k : Kernel) (fd nbytes : Int) :
    k.step (.read fd nbytes) = some (k.read fd nbytes).1 := rfl

/-- A call of the process that is not a read of the directory leaves the listing. -/
theorem listing_other {e : Event} (h : k.callerPcb.Listing fd pos) (he : e.OnDescriptor)
    (hread : ∀ nbytes, e ≠ .read fd nbytes) (hclose : e ≠ .closeFile fd)
    (hstep : k.step e = some k') : (k'.tab.pcb k.currPid).Listing fd pos := by
  cases e with
  | read fd' nbytes =>
    cases hstep
    have hne : fd ≠ fd' := fun heq => hread nbytes (by rw [heq])
    cases read_pcb fd' nbytes k with
    | inl hsame =>
      rw [hsame]
      exact h
    | inr hmoved =>
      obtain ⟨position, hpcb⟩ := hmoved
      rw [hpcb, Function.update_self]
      exact h.setPosition_of_ne hne
  | write fd' buf =>
    cases hstep
    rw [write_pcb]
    exact h
  | openFile fname garbage =>
    cases hstep
    rcases openFile_cases fname garbage k with ⟨-, hsame, -⟩ | ⟨dentry, i, -, hindex, -, hset⟩
    · rw [hsame]
      exact h
    · -- The index that is taken was empty.
      have hne : fd ≠ i + 2 := by
        intro heq
        have hempty := (openIndex_eq_some hindex).2.2.1
        have hfull := h.index
        have hi : fd - 2 = i := by omega
        rw [hi, hempty] at hfull
        exact PCB.full_ne_empty hfull.symm
      rw [hset, Function.update_self]
      exact h.setEntry_of_ne hne
  | closeFile fd' =>
    cases hstep
    have hne : fd ≠ fd' := fun heq => hclose (by rw [heq])
    rcases closeFile_cases fd' k with ⟨-, hsame, -⟩ | ⟨-, -, -, -, hset⟩
    · rw [hsame]
      exact h
    · rw [hset, Function.update_self]
      exact h.setEntry_of_ne (by omega)
  | _ => exact absurd he id

/-- A read of the process is one step of a run. -/
theorem reaches_read (hp : k.currPid = p) (h : List Returned) (fd nbytes : Int) :
    Reaches (observe step (noteReads p fd)) (fun s e => KeepsOpen p fd s.1 e) (k, h)
      ((k.read fd nbytes).1, h ++ [(k.read fd nbytes).2]) := by
  have hkeeps : KeepsOpen p fd k (.read fd nbytes) :=
    ⟨not_restarts (e := .read fd nbytes) trivial p, fun h => nomatch h.2⟩
  have hnote : h ++ [(k.read fd nbytes).2]
      = noteReads p fd k (.read fd nbytes) (k.read fd nbytes).1 h := by
    rw [noteReads, if_pos ⟨hp, rfl⟩]
  exact Relation.ReflTransGen.single ⟨_, hkeeps, observe_eq_some.mpr ⟨step_read k fd nbytes, hnote⟩⟩

/-- The results of `n` reads in a row. -/
def reads (fd nbytes : Int) : (n : Nat) → Kernel → List Returned
  | 0, _ => []
  | n + 1, k => (k.read fd nbytes).2 :: reads fd nbytes n (k.read fd nbytes).1

theorem reaches_reads (hp : k.currPid = p) (h : List Returned) (fd nbytes : Int) (n : Nat) :
    ∃ k', Reaches (observe step (noteReads p fd)) (fun s e => KeepsOpen p fd s.1 e) (k, h)
      (k', h ++ k.reads fd nbytes n) := by
  induction n generalizing k h with
  | zero =>
    refine ⟨k, ?_⟩
    rw [reads, List.append_nil]
  | succ n ih =>
    have hfirst := reaches_read hp h fd nbytes
    have hp' : (k.read fd nbytes).1.currPid = p := (aside_read fd nbytes k).currPid.trans hp
    obtain ⟨k', hrest⟩ := ih hp' (h ++ [(k.read fd nbytes).2])
    refine ⟨k', ?_⟩
    rw [List.append_assoc] at hrest
    exact hfirst.trans hrest

/-- The position of the listing after the results so far, which are the names in turn. -/
structure Enumerating (img : Image) (p : Pid) (fd : Int) (k : Kernel) (h : List Returned) :
    Prop where
  sameImg : k.img = img
  listing : (k.tab.pcb p).Listing fd (h.length % (img.numDirectoryEntries.toNat + 1) : Nat)
  results : ∀ n (hn : n < h.length),
    h[n] = .value (img.enumerated n).length (img.enumerated n)

theorem Enumerating.of_listing {img : Image} {h : List Returned} (hk : Enumerating img p fd k h)
    (himg : k'.img = k.img)
    (hlisting : ∀ pos, (k.tab.pcb p).Listing fd pos → (k'.tab.pcb p).Listing fd pos) :
    Enumerating img p fd k' h :=
  ⟨himg.trans hk.sameImg, hlisting _ hk.listing, hk.results⟩

theorem Enumerating.read {img : Image} {h : List Returned} (hk : Enumerating img p fd k h)
    (hcount : 0 ≤ img.numDirectoryEntries) (hp : k.currPid = p) (nbytes : Int) :
    Enumerating img p fd (k.read fd nbytes).1 (h ++ [(k.read fd nbytes).2]) := by
  subst hp
  obtain ⟨hvalue, hpcb⟩ := read_listing hk.listing nbytes
  rw [hk.sameImg] at hvalue hpcb
  refine ⟨(aside_read fd nbytes k).img.trans hk.sameImg, ?_, fun n hn => ?_⟩
  · rw [hpcb, Function.update_self, Image.nextPosition_mod hcount, List.length_append]
    exact hk.listing.setPosition _
  · by_cases hlast : n < h.length
    · rw [List.getElem_append_left hlast]
      exact hk.results n hlast
    · have heq : n = h.length := by
        rw [List.length_append, List.length_singleton] at hn
        omega
      subst heq
      rw [List.getElem_concat_length rfl, hvalue]
      rfl

theorem Enumerating.step {img : Image} {h : List Returned} (hk : Enumerating img p fd k h)
    (hcount : 0 ≤ img.numDirectoryEntries) {e : Event} (he : KeepsOpen p fd k e)
    (hstep : k.step e = some k') : Enumerating img p fd k' (noteReads p fd k e k' h) := by
  have himg := step_img hstep
  obtain ⟨hrestarts, hcloses⟩ := he
  by_cases hread : k.currPid = p ∧ ∃ nbytes, e = .read fd nbytes
  · obtain ⟨hp, nbytes, rfl⟩ := hread
    have hk' : (k.read fd nbytes).1 = k' := Option.some.inj ((step_read k fd nbytes).symm.trans hstep)
    have hnote : noteReads p fd k (.read fd nbytes) k' h = h ++ [(k.read fd nbytes).2] :=
      if_pos ⟨hp, rfl⟩
    rw [hnote, ← hk']
    exact hk.read hcount hp nbytes
  · have hnote : noteReads p fd k e k' h = h := by
      cases e with
      | read fd' nbytes => exact if_neg fun hin => hread ⟨hin.1, nbytes, by rw [hin.2]⟩
      | _ => rfl
    rw [hnote]
    refine hk.of_listing himg fun pos hpos => ?_
    by_cases hdesc : e.OnDescriptor
    · by_cases hp : k.currPid = p
      · subst hp
        exact listing_other hpos hdesc (fun nbytes heq => hread ⟨rfl, nbytes, heq⟩)
          (fun heq => hcloses ⟨rfl, heq⟩) hstep
      · rw [onDescriptor_pcb_of_ne hdesc hstep (Ne.symm hp)]
        exact hpos
    · obtain ⟨hindexes, hfds⟩ := step_sameTable hdesc hrestarts hstep
      exact hpos.of_eq (by rw [hfds]) (by rw [hindexes])

/-- A directory that `open` finds is open at its first entry. -/
theorem openFile_listing {fname : Bytes} {garbage dentry : Image.Dentry}
    (hfound : k.img.readDentryByName fname garbage = some dentry) (htype : dentry.filetype = 1)
    (hopened : (k.openFile fname garbage).2 ≠ -1) :
    ((k.openFile fname garbage).1.tab.pcb k.currPid).Listing (k.openFile fname garbage).2 0 := by
  rcases openFile_cases fname garbage k with ⟨hret, -, -⟩ | ⟨dentry', i, hfound', hindex, hret, hset⟩
  · exact absurd hret hopened
  · have hsame : dentry' = dentry := Option.some.inj (hfound'.symm.trans hfound)
    obtain ⟨h0, hi, -, -⟩ := openIndex_eq_some hindex
    subst hsame
    rw [hset, hret, Function.update_self, htype]
    exact PCB.listing_setEntry h0 hi

/-- The results of the reads of a directory: the names of the entries in order, then 0,
and so on. -/
structure Enumerates (img : Image) (results : List Returned) : Prop where
  names : ∀ n (hn : n < results.length),
    n % (img.numDirectoryEntries.toNat + 1) < img.numDirectoryEntries.toNat →
    results[n] = .value (img.entryName (n % (img.numDirectoryEntries.toNat + 1) : Nat)).length
      (img.entryName (n % (img.numDirectoryEntries.toNat + 1) : Nat))
  ends : ∀ n (hn : n < results.length), (∃ stored, results[n] = .value 0 stored) ↔
    n % (img.numDirectoryEntries.toNat + 1) = img.numDirectoryEntries.toNat

theorem Enumerating.enumerates {img : Image} {results : List Returned}
    (hk : Enumerating img p fd k results)
    (hnames : ∀ i : Int, 0 ≤ i → i < img.numDirectoryEntries → img.entryName i ≠ []) :
    Enumerates img results := by
  refine ⟨fun n hn hin => ?_, fun n hn => ?_⟩
  · rw [hk.results n hn, Image.enumerated_of_lt hin]
  · have hlt : n % (img.numDirectoryEntries.toNat + 1) < img.numDirectoryEntries.toNat + 1 :=
      Nat.mod_lt n (Nat.succ_pos _)
    rw [hk.results n hn]
    constructor
    · intro hzero
      obtain ⟨stored, hvalue⟩ := hzero
      rw [Returned.value.injEq] at hvalue
      have hlen := hvalue.1
      by_contra hne
      have hin : n % (img.numDirectoryEntries.toNat + 1) < img.numDirectoryEntries.toNat := by
        omega
      have hempty : img.enumerated n = [] := List.eq_nil_of_length_eq_zero (by omega)
      rw [Image.enumerated_of_lt hin] at hempty
      generalize n % (img.numDirectoryEntries.toNat + 1) = r at hin hempty
      exact hnames r (by omega) (by omega) hempty
    · intro hlast
      rw [Image.enumerated_of_eq hlast]
      exact ⟨[], rfl⟩

/-- After a directory is opened, the reads of its descriptor enumerate it, whatever the
machine does in between while the descriptor stays open. -/
theorem directory_enumerated {fname : Bytes} {garbage dentry : Image.Dentry}
    (hnames : ∀ i : Int, 0 ≤ i → i < k.img.numDirectoryEntries → k.img.entryName i ≠ [])
    (hfound : k.img.readDentryByName fname garbage = some dentry) (htype : dentry.filetype = 1)
    (hopened : (k.openFile fname garbage).2 ≠ -1) {results : List Returned}
    (hrun : Reaches (observe step (noteReads k.currPid (k.openFile fname garbage).2))
      (fun s e => KeepsOpen k.currPid (k.openFile fname garbage).2 s.1 e)
      ((k.openFile fname garbage).1, []) (k', results)) : Enumerates k.img results := by
  have hcount : 0 ≤ k.img.numDirectoryEntries := by
    obtain ⟨i, h0, hi, -⟩ := Image.exists_entry hfound
    omega
  have hfirst : Enumerating k.img k.currPid (k.openFile fname garbage).2
      (k.openFile fname garbage).1 [] := by
    refine ⟨(aside_openFile fname garbage k).img, ?_, fun n hn => absurd hn (by simp)⟩
    rw [List.length_nil, Nat.zero_mod]
    exact openFile_listing hfound htype hopened
  have hlast : Enumerating k.img k.currPid (k.openFile fname garbage).2 k' results := by
    refine hrun.invariant (I := fun s => Enumerating k.img k.currPid
      (k.openFile fname garbage).2 s.1 s.2) ?_ hfirst
    intro s e s' hs he hstep
    obtain ⟨hk, hnote⟩ := observe_eq_some.mp hstep
    rw [hnote]
    exact hs.step hcount he hk
  exact hlast.enumerates hnames

/-! ## A machine with a second file -/

section BesideShell

variable {name : List UInt8} {filetype : UInt8}

theorem besideShell_head (htype : filetype.toNat < 3) :
    (besideShell name filetype).readData 0 0 4 = some elfMagic := by
  have hlength := besideShell_length name filetype
  have hinodes := besideShell_inodes name filetype
  have hwf : (besideShell name filetype).WellFormed := besideShell_wellFormed htype
  have hvalid : (0 : Int) ≤ 0 ∧ (0 : Int) < (besideShell name filetype).numInodes := by omega
  have hhead := Image.readData_eq (n := 4) hwf hvalid (Int.le_refl 0) (by omega)
  rw [besideShell_magic] at hhead
  exact hhead

/-- The image has a shell whatever its second entry is. -/
theorem besideShell_hasShell (htype : filetype.toNat < 3) (hname : ∀ b ∈ name, b ≠ 0)
    (hlen : name.length ≤ filenameLen) (hother : name ≠ [0x73, 0x68, 0x65, 0x6C, 0x6C]) :
    HasShell (besideShell name filetype) ((besideShell name filetype).fileBytes 0 0 4096) := by
  have hwf : (besideShell name filetype).WellFormed := besideShell_wellFormed htype
  have hfirst : (besideShell name filetype).entryNamed [0x73, 0x68, 0x65, 0x6C, 0x6C] = some 0 :=
    besideShell_shell hname hlen hother
  obtain ⟨dentry, hread, -, hinode⟩ :=
    Image.readDentryByName_found firstWord_shell (by decide) hfirst shellCall.garbage
  rw [Int.natCast_zero, (besideShell_inode _ _).1] at hinode
  have hlength := besideShell_length name filetype
  have hinodes := besideShell_inodes name filetype
  have hvalid : (0 : Int) ≤ 0 ∧ (0 : Int) < (besideShell name filetype).numInodes := by omega
  have hzero : u32 0 = 0 := by decide
  refine ⟨⟨dentry, hread, ?_, ?_⟩, ?_⟩
  · rw [hinode]
    exact besideShell_head htype
  · have hcount : min (u32 0x400000).toNat (Image.blockEnd 40 - 0).toNat = 4096 := by decide
    have hfrom : u32 0 ≤ (besideShell name filetype).inodeLength 0 := by
      rw [hlength]
      decide
    have hall := Image.readData_eq_fileBytes hwf hvalid hfrom 0x400000
    rw [hlength, hzero, hcount] at hall
    rw [hinode]
    exact hall
  · rw [Image.length_fileBytes]
    decide

/-- The kernel with the first shell running beside a second entry. -/
def besideKernel (name : List UInt8) (filetype : UInt8) : Kernel :=
  (init zeroRam (besideShell name filetype)).launched shellCall 0
    ((besideShell name filetype).fileBytes 0 0 4096) { ebp := 0, esp := 0 }

theorem entry_besideKernel (htype : filetype.toNat < 3) (hname : ∀ b ∈ name, b ≠ 0)
    (hlen : name.length ≤ filenameLen) (hother : name ≠ [0x73, 0x68, 0x65, 0x6C, 0x6C]) :
    entry zeroRam (besideShell name filetype) = some (besideKernel name filetype) :=
  entry_eq zeroRam (besideShell_hasShell htype hname hlen hother)

end BesideShell

/-- The name `.` of the directory. -/
def dotName : Bytes := Bytes.ofList [0x2E]

/-- The kernel with the first shell running beside the directory. -/
def dotKernel : Kernel := besideKernel [0x2E] 1

theorem entry_dotKernel : entry zeroRam (besideShell [0x2E] 1) = some dotKernel :=
  entry_besideKernel (by decide) (by simp) (by decide) (by decide)

theorem dotKernel_img : dotKernel.img = besideShell [0x2E] 1 :=
  launched_img shellCall 0 _ { ebp := 0, esp := 0 } (init zeroRam (besideShell [0x2E] 1))

theorem dotKernel_found : ∃ dentry,
    dotKernel.img.readDentryByName dotName shellCall.garbage = some dentry ∧
      dentry.filetype = 1 ∧ dentry.inodeNum = 0 := by
  have hword : dotName.name 33 = [0x2E] := by decide
  rw [dotKernel_img]
  exact besideShell_found (by decide) (by simp) (by decide) hword shellCall.garbage

/-- The first shell after it has opened the directory. -/
def listingKernel : Kernel := (dotKernel.openFile dotName shellCall.garbage).1

theorem dotKernel_openFile : (dotKernel.openFile dotName shellCall.garbage).2 = 2 := by
  obtain ⟨dentry, hfound, -, -⟩ := dotKernel_found
  have hfree := entry_openIndex entry_dotKernel
  rcases openFile_cases dotName shellCall.garbage dotKernel with
    ⟨-, -, hnone | htaken⟩ | ⟨dentry', i, -, hindex, hret, -⟩
  · exact absurd (hfound.symm.trans hnone) (Option.some_ne_none _)
  · rw [hfree] at htaken
    cases htaken
  · rw [hfree] at hindex
    cases hindex
    exact hret

theorem listingKernel_listing : listingKernel.callerPcb.Listing 2 0 := by
  obtain ⟨dentry, hfound, htype, -⟩ := dotKernel_found
  have hne : (dotKernel.openFile dotName shellCall.garbage).2 ≠ -1 := by
    rw [dotKernel_openFile]
    decide
  have hlisting := openFile_listing hfound htype hne
  rw [dotKernel_openFile] at hlisting
  unfold listingKernel
  rw [callerPcb_of_aside (aside_openFile dotName shellCall.garbage dotKernel)]
  exact hlisting

theorem listingKernel_img : listingKernel.img = besideShell [0x2E] 1 := by
  unfold listingKernel
  rw [(aside_openFile dotName shellCall.garbage dotKernel).img, dotKernel_img]

theorem dotKernel_names : ∀ i : Int, 0 ≤ i → i < dotKernel.img.numDirectoryEntries →
    dotKernel.img.entryName i ≠ [] := by
  intro i h0 hi
  rw [dotKernel_img] at hi ⊢
  rw [besideShell_entries] at hi
  by_cases hfirst : i = 0
  · rw [hfirst, besideShell_name_zero]
    exact List.cons_ne_nil _ _
  · have hsecond : i = 1 := by omega
    rw [hsecond, besideShell_name_one (by simp) (by decide)]
    exact List.cons_ne_nil _ _

/-- Four reads of the open directory: the names of the shell and of the directory, the
end, and the first name again. -/
theorem directory_enumerated_dot : Enumerates dotKernel.img (listingKernel.reads 2 32 4) := by
  obtain ⟨dentry, hfound, htype, -⟩ := dotKernel_found
  have hnames := dotKernel_names
  have hfd := dotKernel_openFile
  unfold listingKernel
  generalize dotKernel = k at hfound hnames hfd ⊢
  have hcurr := (aside_openFile dotName shellCall.garbage k).currPid
  have hne : (k.openFile dotName shellCall.garbage).2 ≠ -1 := by
    rw [hfd]
    decide
  obtain ⟨k', hrun⟩ := reaches_reads hcurr [] (k.openFile dotName shellCall.garbage).2 32 4
  have hlisted := directory_enumerated hnames hfound htype hne hrun
  rw [hfd] at hlisted
  exact hlisted

theorem honoursCount_listing : listingKernel.HonoursCount 2 32 := by
  refine (honoursCount_iff listingKernel_listing (by decide)).mpr (Or.inr (Or.inr ?_))
  rw [listingKernel_img, besideShell_name_zero]
  decide

/-- A read of one byte of the directory delivers the five bytes of `shell`. -/
theorem one_byte_stores_name : (besideShell [0x2E] 1).WellFormed ∧
    listingKernel.img = besideShell [0x2E] 1 ∧ listingKernel.callerPcb.Listing 2 0 ∧
      ¬ listingKernel.HonoursCount 2 1 := by
  refine ⟨besideShell_wellFormed (by decide), listingKernel_img, listingKernel_listing,
    fun h => ?_⟩
  have hfits := h.fits listingKernel_listing
  rw [listingKernel_img, besideShell_name_zero, besideShell_entries] at hfits
  exact absurd hfits (by decide)

end Kernel

end StudentDistrib
