import StudentDistrib.Console.Video
import StudentDistrib.Lib.Printf

/-!
# Formats

A format is read as plain characters and specifications, and `printf` prints the former
and what the latter stand for in their order.  A format that ends within a specification
takes the scan past its terminator.
-/

namespace StudentDistrib

open Machine

namespace Lib

/-- A part of a format; a specification may be cut short by the end. -/
inductive Chunk
  | text (c : UInt8)
  | conversion (hashes : Nat) (c : UInt8)
  | cut (hashes : Nat)
  deriving DecidableEq

namespace Chunk

/-- The characters that a part is written with. -/
def source : Chunk → List UInt8
  | text c => [c]
  | conversion hashes c => percent :: List.replicate hashes hash ++ [c]
  | cut hashes => percent :: List.replicate hashes hash

/-- The parts of a format, within a specification where its marks so far are given. -/
def parse : Option Nat → List UInt8 → List Chunk
  | none, [] => []
  | some hashes, [] => [cut hashes]
  | none, c :: l => if c = percent then parse (some 0) l else text c :: parse none l
  | some hashes, c :: l =>
    if c = hash then parse (some (hashes + 1)) l else conversion hashes c :: parse none l

/-- The parts spell the format. -/
theorem source_parse (marks : Option Nat) (l : List UInt8) :
    (parse marks l).flatMap source =
      (marks.map fun hashes => percent :: List.replicate hashes hash).getD [] ++ l := by
  induction l generalizing marks with
  | nil =>
    cases marks with
    | none => rfl
    | some hashes => simp [parse, source]
  | cons c l ih =>
    cases marks with
    | none =>
      by_cases hc : c = percent
      · simp [parse, hc, ih]
      · simp [parse, hc, ih, source]
    | some hashes =>
      by_cases hc : c = hash
      · simp [parse, hc, ih, List.replicate_succ']
      · simp [parse, hc, ih, source]

end Chunk

/-- The parts of a whole format. -/
def chunks (w : List UInt8) : List Chunk := Chunk.parse none w

/-- The format ends within a specification. -/
def CutShort (w : List UInt8) : Prop := ∃ hashes, Chunk.cut hashes ∈ chunks w

/-! ## What a format prints -/

/-- The text that a conversion stands for. -/
def conversionText (call : Call) (alternate : Bool) (c : UInt8) (value : UInt32) :
    List UInt8 :=
  if c = percent then [percent]
  else if c = letterX then
    if alternate then paddedText value.toNat else numeralText 16 value.toNat
  else if c = letterU then numeralText 10 value.toNat
  else if c = letterD then signedText (i32 value.toNat)
  else if c = letterC then [value.toUInt8]
  else if c = letterS then (puts (call.string value)).getD []
  else []

/-- The number of arguments that a conversion takes. -/
def conversionArgs (c : UInt8) : Nat :=
  if c ∈ [letterX, letterU, letterD, letterC, letterS] then 1 else 0

/-- The text of a format whose first argument is number `k`. -/
def render (call : Call) : List Chunk → (k : Nat) → List UInt8
  | [], _ => []
  | .text c :: l, k => c :: render call l k
  | .conversion hashes c :: l, k =>
    conversionText call (hashes ≠ 0) c (call.arg k) ++ render call l (k + conversionArgs c)
  | .cut _ :: l, k => render call l k

variable {call : Call}

theorem ofInt_toNat (a : UInt32) : UInt32.ofInt (a.toNat : Int) = a := by
  have hlt := a.toNat_lt
  have hmod : (a.toNat : Int) % 2 ^ 32 = a.toNat := Int.emod_eq_of_lt (by omega) (by omega)
  rw [UInt32.ofInt, hmod, Int.toNat_natCast, UInt32.ofNat_toNat]

/-- A string ends within the addresses if there is a zero byte in memory. -/
theorem puts_string (hzero : ∃ a, call.ram a = 0) (p : UInt32) :
    ∃ w, puts (call.string p) = some w := by
  obtain ⟨a, ha⟩ := hzero
  refine exists_untilNul (i := (a - p).toNat) (a - p).toNat_lt ?_
  show call.ram (p + UInt32.ofInt ((a - p).toNat : Int)) = 0
  rw [ofInt_toNat, UInt32.add_comm, UInt32.sub_add_cancel, ha]

/-- Every conversion prints its text and passes its arguments. -/
theorem convert_eq (hzero : ∃ a, call.ram a = 0) (alternate : Bool) (c : UInt8) (s : Scan) :
    call.convert alternate c s =
      some (s.emit (conversionText call alternate c (call.arg s.esp)) (conversionArgs c)) := by
  by_cases hpercent : c = percent
  · subst hpercent
    rfl
  by_cases hx : c = letterX
  · subst hx
    rw [convert_letterX, convertHex_eq]
    rfl
  by_cases hu : c = letterU
  · subst hu
    rw [convert_letterU, convertUnsigned_eq]
    rfl
  by_cases hd : c = letterD
  · subst hd
    have htext : conversionText call alternate letterD (call.arg s.esp) =
        signedText (i32 (call.arg s.esp).toNat) := by
      simp only [conversionText, if_neg hpercent, if_neg hx, if_neg hu, if_true]
    have hargs : conversionArgs letterD = 1 := rfl
    rw [convert_letterD, convertSigned_eq, htext, hargs, Option.map_some]
  by_cases hc : c = letterC
  · subst hc
    rfl
  by_cases hs : c = letterS
  · subst hs
    obtain ⟨w, hw⟩ := puts_string hzero (call.arg s.esp)
    have htext : conversionText call alternate letterS (call.arg s.esp) =
        (puts (call.string (call.arg s.esp))).getD [] := rfl
    rw [convert_letterS, htext, hw]
    rfl
  · simp [Call.convert, conversionText, conversionArgs, Scan.emit, hpercent, hx, hu, hd, hc, hs]

/-! ## The scan of a format -/

/-- The phase of a scan that has read so many marks of a specification. -/
def Phase.after : Option Nat → Phase
  | none => .text
  | some hashes => .specification (hashes ≠ 0)

/-- One step reads on in the format and prints what the part that it ends stands for. -/
theorem feed_parse (hzero : ∃ a, call.ram a = 0) {marks : Option Nat} {s : Scan}
    (hphase : s.phase = Phase.after marks) (c : UInt8) :
    ∃ marks' done s', call.feed c s = some s' ∧ s'.phase = Phase.after marks' ∧
      s'.buf = s.buf + 1 ∧ s'.reads = s.reads ∧
      (∀ l, Chunk.parse marks (c :: l) = done ++ Chunk.parse marks' l) ∧
      (∀ hashes, Chunk.cut hashes ∉ done) ∧
      ∀ l, s.out ++ render call (done ++ l) s.esp = s'.out ++ render call l s'.esp := by
  cases marks with
  | none =>
    by_cases hc : c = percent
    · refine ⟨some 0, [], s.next (.specification false), ?_, rfl, rfl, rfl, ?_, ?_, ?_⟩
      · simp only [Call.feed, hphase, Phase.after, if_pos hc]
      · intro l
        rw [Chunk.parse, if_pos hc]
        rfl
      · simp
      · intro l
        rfl
    · refine ⟨none, [.text c], (s.emit [c] 0).next .text, ?_, rfl, rfl, rfl, ?_, ?_, ?_⟩
      · simp only [Call.feed, hphase, Phase.after, if_neg hc]
      · intro l
        rw [Chunk.parse, if_neg hc]
        rfl
      · simp
      · intro l
        simp [Scan.next, Scan.emit, render]
  | some hashes =>
    by_cases hc : c = hash
    · refine ⟨some (hashes + 1), [], s.next (.specification true), ?_, ?_, rfl, rfl, ?_, ?_, ?_⟩
      · simp only [Call.feed, hphase, Phase.after, if_pos hc]
      · simp [Phase.after, Scan.next]
      · intro l
        rw [Chunk.parse, if_pos hc]
        rfl
      · simp
      · intro l
        rfl
    · refine ⟨none, [.conversion hashes c],
        (s.emit (conversionText call (hashes ≠ 0) c (call.arg s.esp)) (conversionArgs c)).next
          .text, ?_, rfl, rfl, rfl, ?_, ?_, ?_⟩
      · rw [feed_conversion hphase hc, convert_eq hzero]
        rfl
      · intro l
        rw [Chunk.parse, if_neg hc]
        rfl
      · simp
      · intro l
        simp [Scan.next, Scan.emit, render]

/-- The format from the cursor on. -/
def Call.rest (call : Call) (s : Scan) : Bytes := (call.string call.format).shift s.buf

theorem charAt_buf (call : Call) (s : Scan) : call.charAt s.buf = call.rest s 0 := by
  rw [Call.rest, Bytes.shift, Int.add_zero]
  rfl

theorem rest_next {s s' : Scan} (h : s'.buf = s.buf + 1) :
    call.rest s' = (call.rest s).shift 1 := by
  rw [Call.rest, Call.rest, Bytes.shift_shift, h]
  rfl

theorem scan_return {s : Scan} (hphase : s.phase = .text) (hend : call.charAt s.buf = 0)
    (bound : Nat) : call.scan (bound + 1) s = some s.look :=
  if_pos ⟨hphase, hend⟩

theorem scan_feed {s s' : Scan} {c : UInt8} (hc : call.charAt s.buf = c)
    (hgoes : ¬(s.phase = .text ∧ c = 0)) (hfeed : call.feed c s.look = some s') (bound : Nat) :
    call.scan (bound + 1) s = call.scan bound s' := by
  subst hc
  rw [Call.scan, if_neg hgoes, hfeed]
  rfl

/-- A format that is not cut short is read up to its terminator and printed in full. -/
theorem scan_complete (hzero : ∃ a, call.ram a = 0) {l : List UInt8} {marks : Option Nat}
    {s : Scan} (hrest : (call.rest s).Holds l) (hphase : s.phase = Phase.after marks)
    (hcut : ∀ hashes, Chunk.cut hashes ∉ Chunk.parse marks l) :
    ∃ bound s', call.scan bound s = some s' ∧ s'.buf = s.buf + l.length ∧
      s'.out = s.out ++ render call (Chunk.parse marks l) s.esp ∧
      s'.reads = s.reads ++ List.range' s.buf (l.length + 1) := by
  induction l generalizing marks s with
  | nil =>
    cases marks with
    | none =>
      have hend : call.charAt s.buf = 0 := by
        rw [charAt_buf]
        exact holds_nil hrest
      exact ⟨1, s.look, scan_return hphase hend 0, rfl, (List.append_nil _).symm, rfl⟩
    | some hashes => exact absurd List.mem_cons_self (hcut hashes)
  | cons c l ih =>
    obtain ⟨hc, hne, hnext⟩ := holds_cons.mp hrest
    obtain ⟨marks', done, s', hfeed, hphase', hbuf, hreads, hparse, -, hout⟩ :=
      feed_parse hzero (s := s.look) hphase c
    have hcut' : ∀ hashes, Chunk.cut hashes ∉ Chunk.parse marks' l := by
      intro hashes hmem
      refine hcut hashes ?_
      rw [hparse]
      exact List.mem_append_right done hmem
    rw [← rest_next (s := s) hbuf] at hnext
    obtain ⟨bound, t, hscan, htbuf, htout, htreads⟩ := ih hnext hphase' hcut'
    refine ⟨bound + 1, t, ?_, ?_, ?_, ?_⟩
    · rw [scan_feed ((charAt_buf call s).trans hc) (fun h => hne h.2) hfeed, hscan]
    · rw [htbuf, hbuf, List.length_cons]
      show s.buf + 1 + l.length = s.buf + (l.length + 1)
      omega
    · rw [htout, hparse]
      exact (hout _).symm
    · rw [htreads, hreads, hbuf, List.length_cons]
      show s.reads ++ [s.buf] ++ List.range' (s.buf + 1) (l.length + 1) = _
      rw [List.append_assoc, List.range'_succ (s := s.buf)]
      rfl

/-- What was read stays read, and a scan that returns has read the next character. -/
theorem scan_reads (hzero : ∃ a, call.ram a = 0) {bound : Nat} {s t : Scan}
    (h : call.scan bound s = some t) : s.buf ∈ t.reads ∧ ∀ i ∈ s.reads, i ∈ t.reads := by
  induction bound generalizing s with
  | zero => cases h
  | succ bound ih =>
    have hlook : ∀ i ∈ s.look.reads, i ∈ t.reads := by
      by_cases hreturn : s.phase = .text ∧ call.charAt s.buf = 0
      · rw [scan_return hreturn.1 hreturn.2, Option.some.injEq] at h
        rw [← h]
        exact fun i hi => hi
      · obtain ⟨marks, hphase⟩ : ∃ marks, s.look.phase = Phase.after marks := by
          cases hs : s.phase with
          | text => exact ⟨none, hs⟩
          | specification alternate =>
            cases alternate with
            | false => exact ⟨some 0, hs⟩
            | true => exact ⟨some 1, hs⟩
        obtain ⟨-, -, s', hfeed, -, -, hreads, -⟩ :=
          feed_parse hzero hphase (call.charAt s.buf)
        rw [scan_feed rfl hreturn hfeed] at h
        rw [← hreads]
        exact (ih h).2
    constructor
    · exact hlook _ (List.mem_append_right _ List.mem_cons_self)
    · exact fun i hi => hlook i (List.mem_append_left _ hi)

/-- A scan of a format that is cut short reads the character after the terminator. -/
theorem scan_cut (hzero : ∃ a, call.ram a = 0) {l : List UInt8} {marks : Option Nat}
    {hashes bound : Nat} {s t : Scan} (hrest : (call.rest s).Holds l)
    (hphase : s.phase = Phase.after marks) (hcut : Chunk.cut hashes ∈ Chunk.parse marks l)
    (h : call.scan bound s = some t) : s.buf + l.length + 1 ∈ t.reads := by
  induction l generalizing marks s bound with
  | nil =>
    cases marks with
    | none => cases hcut
    | some k =>
      cases bound with
      | zero => cases h
      | succ bound =>
        obtain ⟨-, -, s', hfeed, -, hbuf, -⟩ := feed_parse hzero (s := s.look) hphase 0
        have hgoes : ¬(s.phase = .text ∧ (0 : UInt8) = 0) := by
          intro htext
          rw [hphase] at htext
          cases htext.1
        rw [scan_feed ((charAt_buf call s).trans (holds_nil hrest)) hgoes hfeed] at h
        have hread := (scan_reads hzero h).1
        rw [hbuf] at hread
        exact hread
  | cons c l ih =>
    obtain ⟨hc, hne, hnext⟩ := holds_cons.mp hrest
    cases bound with
    | zero => cases h
    | succ bound =>
      obtain ⟨marks', done, s', hfeed, hphase', hbuf, -, hparse, hdone, -⟩ :=
        feed_parse hzero (s := s.look) hphase c
      rw [scan_feed ((charAt_buf call s).trans hc) (fun hend => hne hend.2) hfeed] at h
      rw [hparse] at hcut
      rw [← rest_next (s := s) hbuf] at hnext
      have hread := ih hnext hphase' ((List.mem_append.mp hcut).resolve_left (hdone hashes)) h
      rw [hbuf] at hread
      have hoffset : s.look.buf + 1 + l.length + 1 = s.buf + (c :: l).length + 1 := by
        rw [List.length_cons]
        show s.buf + 1 + l.length + 1 = _
        omega
      rw [← hoffset]
      exact hread

/-! ## Whole formats -/

/-- `printf` returns the length of the format, having read nothing behind its terminator
and printed its characters and conversions in order. -/
def ScansExactly (call : Call) (w : List UInt8) : Prop :=
  ∃ bound s, call.printf bound = some s ∧ s.buf = w.length ∧ (∀ i ∈ s.reads, i ≤ w.length) ∧
    s.out = render call (chunks w) 0

theorem rest_start (call : Call) : call.rest Scan.start = call.string call.format := by
  funext i
  exact congrArg (call.string call.format) (Int.zero_add i)

theorem exists_zero {w : List UInt8} (h : (call.string call.format).Holds w) :
    ∃ a, call.ram a = 0 := ⟨_, h.terminated⟩

theorem scansExactly_of_complete {w : List UInt8} (h : (call.string call.format).Holds w)
    (hcut : ¬ CutShort w) : ScansExactly call w := by
  have hphase : Scan.start.phase = Phase.after none := rfl
  rw [← rest_start] at h
  obtain ⟨bound, s, hscan, hbuf, hout, hreads⟩ :=
    scan_complete (exists_zero ((rest_start call) ▸ h)) h hphase (not_exists.mp hcut)
  refine ⟨bound, s, hscan, ?_, fun i hi => ?_, hout⟩
  · rw [hbuf]
    exact Nat.zero_add _
  · rw [hreads] at hi
    have hrange : i ∈ List.range' 0 (w.length + 1) := hi
    rw [List.mem_range'_1] at hrange
    omega

theorem not_scansExactly_of_cut {w : List UInt8} (h : (call.string call.format).Holds w)
    (hcut : CutShort w) : ¬ ScansExactly call w := by
  intro hexact
  obtain ⟨bound, s, hscan, -, hreads, -⟩ := hexact
  obtain ⟨hashes, hcut⟩ := hcut
  have hzero := exists_zero h
  rw [← rest_start] at h
  have hphase : Scan.start.phase = Phase.after none := rfl
  have hread := scan_cut hzero h hphase hcut hscan
  have hle := hreads _ hread
  have hstart : Scan.start.buf = 0 := rfl
  omega

/-- The parts of a format spell it, and `printf` scans it exactly if and only if it does
not end within a specification. -/
theorem scansExactly_iff {w : List UInt8} (h : (call.string call.format).Holds w) :
    (chunks w).flatMap Chunk.source = w ∧ (ScansExactly call w ↔ ¬ CutShort w) := by
  constructor
  · exact Chunk.source_parse none w
  · constructor
    · intro hexact hcut
      exact not_scansExactly_of_cut h hcut hexact
    · exact scansExactly_of_complete h

/-- A format in the kernel's page, with zeros around it. -/
def inKernelPage (w : List UInt8) : Call where
  ram := fun a => if 0x410000 ≤ a.toNat then w.getD (a.toNat - 0x410000) 0 else 0
  format := 0x410000
  arg := fun _ => 7
  convBuf := fun _ => Bytes.ofList []

theorem sameOn_inKernelPage (w : List UInt8) :
    Bytes.SameOn 0x10000 ((inKernelPage w).string (inKernelPage w).format) (Bytes.ofList w) := by
  intro i h0 hi
  have haddr : ((inKernelPage w).format + UInt32.ofInt i).toNat = 0x410000 + i.toNat := by
    have hint : (UInt32.ofInt i).toNat = i.toNat := by
      have hmod : i % 2 ^ 32 = i := Int.emod_eq_of_lt h0 (by omega)
      have hlt : i.toNat < 2 ^ 32 := by omega
      rw [UInt32.ofInt, hmod, UInt32.toNat_ofNat', Nat.mod_eq_of_lt hlt]
    rw [UInt32.toNat_add, hint]
    have hformat : (inKernelPage w).format.toNat = 0x410000 := rfl
    omega
  have hbyte : (inKernelPage w).string (inKernelPage w).format i =
      (inKernelPage w).ram ((inKernelPage w).format + UInt32.ofInt i) := rfl
  rw [hbyte]
  simp only [inKernelPage, Bytes.ofList] at haddr ⊢
  rw [haddr, if_pos (Nat.le_add_right _ _), if_pos h0, Nat.add_sub_cancel_left]

theorem inKernelPage_holds {w : List UInt8} (hw : ∀ b ∈ w, b ≠ 0) (hlen : w.length < 0x10000) :
    ((inKernelPage w).string (inKernelPage w).format).Holds w := by
  have hsame := sameOn_inKernelPage w
  have hlist := Bytes.holds_ofList hw
  constructor
  · exact hw
  · have hword : Bytes.SameOn w.length _ _ :=
      fun i h0 hi => hsame i h0 (lt_trans hi (by exact_mod_cast hlen))
    exact hword.take_eq.trans hlist.bytes
  · exact (hsame _ (Int.natCast_nonneg _) (by exact_mod_cast hlen)).trans hlist.terminated

/-- A format of one conversion sign is scanned past its terminator. -/
theorem percent_overruns :
    ¬ ∀ (call : Call) (w : List UInt8), (call.string call.format).Holds w →
      ScansExactly call w := by
  intro h
  have hholds := inKernelPage_holds (w := [percent]) (by simp [percent]) (by decide)
  exact not_scansExactly_of_cut hholds ⟨0, List.mem_cons_self⟩ (h _ _ hholds)

/-- The format `%d%`, cut short after its first conversion. -/
theorem scansExactly_iff_two :
    (chunks [percent, letterD, percent]).flatMap Chunk.source = [percent, letterD, percent] ∧
      (ScansExactly (inKernelPage [percent, letterD, percent]) [percent, letterD, percent] ↔
        ¬ CutShort [percent, letterD, percent]) :=
  scansExactly_iff (inKernelPage_holds (by simp [percent, letterD]) (by decide))

/-! ## Plain texts -/

theorem parse_plain {w : List UInt8} (h : percent ∉ w) :
    Chunk.parse none w = w.map Chunk.text := by
  induction w with
  | nil => rfl
  | cons c w ih =>
    have hc : c ≠ percent := fun heq => h (heq ▸ List.mem_cons_self)
    rw [Chunk.parse, if_neg hc, ih (fun hmem => h (List.mem_cons_of_mem c hmem)), List.map_cons]

theorem render_plain (call : Call) (w : List UInt8) (k : Nat) :
    render call (w.map Chunk.text) k = w := by
  induction w with
  | nil => rfl
  | cons c w ih => rw [List.map_cons, render, ih]

/-- What `printf` hands to `putc` for a format without conversion signs is the text
itself. -/
theorem printf_plain {w : List UInt8} (h : (call.string call.format).Holds w)
    (hplain : percent ∉ w) :
    ∃ bound s, call.printf bound = some s ∧
      ∀ bufIdx (v : Video), s.out.foldl (fun v c => v.putc bufIdx c) v = v.printf bufIdx w := by
  have hcut : ¬ CutShort w := by
    intro hcut
    obtain ⟨hashes, hmem⟩ := hcut
    rw [chunks, parse_plain hplain] at hmem
    simp at hmem
  obtain ⟨bound, s, hscan, -, -, hout⟩ := scansExactly_of_complete h hcut
  rw [chunks, parse_plain hplain, render_plain] at hout
  refine ⟨bound, s, hscan, fun bufIdx v => ?_⟩
  rw [hout]
  rfl

end Lib

end StudentDistrib
