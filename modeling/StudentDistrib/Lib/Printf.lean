import StudentDistrib.Lib.Itoa

/-!
# Formatted output

`printf` as a scan of its format.  Every step looks at the character under the cursor and
moves on by one, which is each of the three places where `buf` is increased.  Only the
steps outside a specification look for the terminator.
-/

namespace StudentDistrib

open Machine

namespace Lib

def percent : UInt8 := 0x25
def hash : UInt8 := 0x23
def letterC : UInt8 := 0x63
def letterD : UInt8 := 0x64
def letterS : UInt8 := 0x73
def letterU : UInt8 := 0x75
def letterX : UInt8 := 0x78

/-- A call of `printf`: memory, the format's address, the words that follow it on the
stack, and what the stack holds where a conversion at some offset places `conv_buf`. -/
structure Call where
  ram : UInt32 → UInt8
  format : UInt32
  arg : Nat → UInt32
  convBuf : Nat → Bytes

/-- Memory seen from an address. -/
def Call.string (call : Call) (p : UInt32) : Bytes := fun i => call.ram (p + UInt32.ofInt i)

/-! ## Conversions -/

/-- `while(i < 8) conv_buf[i++] = '0'`, from an index that is not negative. -/
def padZeros : (bound : Nat) → (i : Int) → Bytes → Bytes
  | 0, _, m => m
  | bound + 1, i, m =>
    if i < 8 then padZeros bound (i + 1) (Function.update m i zeroDigit) else m

/-- `%x`, and `%#x` where `alternate` is set. -/
def convertHex (alternate : Bool) (value : UInt32) (convBuf : Bytes) : Option (List UInt8) :=
  if alternate then do
    let m ← itoa value 8 16 convBuf
    let startingIndex ← strlen (m.shift 8)
    puts ((padZeros 8 startingIndex m).shift startingIndex)
  else do
    let m ← itoa value 0 16 convBuf
    puts (m.shift 0)

/-- `%u`. -/
def convertUnsigned (value : UInt32) (convBuf : Bytes) : Option (List UInt8) := do
  let m ← itoa value 0 10 convBuf
  puts (m.shift 0)

/-- `%d`.  The negation is that of the machine word. -/
def convertSigned (value : UInt32) (convBuf : Bytes) : Option (List UInt8) :=
  if i32 value.toNat < 0 then do
    let m ← itoa (-value) 1 10 (Function.update convBuf 0 minus)
    puts (m.shift 0)
  else convertUnsigned value convBuf

/-! ## The scan -/

/-- Outside a specification, or at `format_char_switch`. -/
inductive Phase
  | text
  | specification (alternate : Bool)
  deriving DecidableEq

/-- The cursor as an offset from `format`, the number of arguments passed by `esp`, the
characters handed to `putc` and the offsets at which the format was read. -/
structure Scan where
  phase : Phase
  buf : Nat
  esp : Nat
  out : List UInt8
  reads : List Nat
  deriving DecidableEq

namespace Scan

def start : Scan := { phase := .text, buf := 0, esp := 0, out := [], reads := [] }

/-- Print `text` and pass `n` arguments. -/
def emit (text : List UInt8) (n : Nat) (s : Scan) : Scan :=
  { s with out := s.out ++ text, esp := s.esp + n }

/-- `buf++`, on to `phase`. -/
def next (phase : Phase) (s : Scan) : Scan := { s with phase := phase, buf := s.buf + 1 }

def look (s : Scan) : Scan := { s with reads := s.reads ++ [s.buf] }

end Scan

/-- The character under the cursor. -/
def Call.charAt (call : Call) (i : Nat) : UInt8 := call.string call.format i

/-- The cases of `format_char_switch` but `#`. -/
def Call.convert (call : Call) (alternate : Bool) (c : UInt8) (s : Scan) : Option Scan :=
  let value := call.arg s.esp
  let convBuf := call.convBuf s.buf
  if c = percent then some (s.emit [percent] 0)
  else if c = letterX then
    (convertHex alternate value convBuf).map fun text => s.emit text 1
  else if c = letterU then (convertUnsigned value convBuf).map fun text => s.emit text 1
  else if c = letterD then (convertSigned value convBuf).map fun text => s.emit text 1
  else if c = letterC then some (s.emit [value.toUInt8] 1)
  else if c = letterS then (puts (call.string value)).map fun text => s.emit text 1
  else some s

/-- A pass through `switch (*buf)` up to `buf++`. -/
def Call.feed (call : Call) (c : UInt8) (s : Scan) : Option Scan :=
  match s.phase with
  | .text =>
    if c = percent then some (s.next (.specification false))
    else some ((s.emit [c] 0).next .text)
  | .specification alternate =>
    if c = hash then some (s.next (.specification true))
    else (call.convert alternate c s).map (Scan.next .text)

/-- The scan up to its return, `none` where it has not returned after `bound` steps. -/
def Call.scan (call : Call) : (bound : Nat) → Scan → Option Scan
  | 0, _ => none
  | bound + 1, s =>
    let c := call.charAt s.buf
    if s.phase = .text ∧ c = 0 then some s.look else (call.feed c s.look).bind (call.scan bound)

/-- `printf`, which returns the final offset of the cursor. -/
def Call.printf (call : Call) (bound : Nat) : Option Scan := call.scan bound Scan.start

/-! ## What the conversions print -/

/-- Every word has its numeral in a buffer that is printed at once. -/
theorem puts_numeral {b : Nat} (hb : 1 < b) (hb36 : b ≤ 36) (value : UInt32) (p : Int)
    (m : Bytes) :
    puts ((Bytes.store (numeralText b value.toNat ++ [0]) p m).shift p) =
      some (numeralText b value.toNat) := by
  have hlength := length_numeralText_word hb value
  refine puts_holds (Bytes.holds_store (numeralText_ne_zero hb hb36 _) p m) ?_
  exact lt_of_le_of_lt hlength (by decide)

theorem convertUnsigned_eq (value : UInt32) (convBuf : Bytes) :
    convertUnsigned value convBuf = some (numeralText 10 value.toNat) := by
  have hradix : (10 : UInt32).toNat = 10 := rfl
  simp only [convertUnsigned, itoa_eq (show 1 < (10 : UInt32).toNat by decide) (by decide), hradix,
    Option.bind_eq_bind, Option.bind_some]
  exact puts_numeral (by decide) (by decide) value 0 convBuf

/-- The signed decimal numeral of an integer. -/
def signedText (n : Int) : List UInt8 :=
  if n < 0 then minus :: numeralText 10 n.natAbs else numeralText 10 n.natAbs

theorem toNat_negated {value : UInt32} (h : i32 value.toNat < 0) :
    (-value).toNat = (i32 value.toNat).natAbs := by
  have hlt := value.toNat_lt
  have hsize : UInt32.size = 4294967296 := rfl
  rw [UInt32.toNat_neg, hsize]
  unfold i32 at *
  omega

theorem convertSigned_eq (value : UInt32) (convBuf : Bytes) :
    convertSigned value convBuf = some (signedText (i32 value.toNat)) := by
  have hradix : (10 : UInt32).toNat = 10 := rfl
  unfold convertSigned signedText
  by_cases hneg : i32 value.toNat < 0
  · have htext := numeralText_ne_zero (b := 10) (by decide) (by decide) (-value).toNat
    have hlength := length_numeralText_word (b := 10) (by decide) (-value)
    rw [if_pos hneg, if_pos hneg, ← toNat_negated hneg]
    simp only [itoa_eq (show 1 < (10 : UInt32).toNat by decide) (by decide), hradix,
      Option.bind_eq_bind, Option.bind_some]
    have hstored := Bytes.holds_store (w := minus :: numeralText 10 (-value).toNat)
      (List.forall_mem_cons.mpr ⟨by decide, htext⟩) 0 convBuf
    refine puts_holds hstored ?_
    rw [List.length_cons]
    exact lt_of_le_of_lt (Nat.succ_le_succ hlength) (by decide)
  · have hlt := value.toNat_lt
    have habs : (i32 value.toNat).natAbs = value.toNat := by
      unfold i32 at *
      omega
    rw [if_neg hneg, if_neg hneg, habs]
    exact convertUnsigned_eq value convBuf

/-- The padding loop fills the places from `i` up to 8. -/
theorem padZeros_eq {bound : Nat} {i : Int} (h0 : 8 - i ≤ bound) (m : Bytes) :
    padZeros bound i m = Bytes.store (List.replicate (8 - i).toNat zeroDigit) i m := by
  induction bound generalizing i m with
  | zero =>
    have hnone : (8 - i).toNat = 0 := by omega
    rw [hnone]
    rfl
  | succ bound ih =>
    rw [padZeros]
    by_cases hlt : i < 8
    · have hcount : (8 - i).toNat = (8 - (i + 1)).toNat + 1 := by omega
      rw [if_pos hlt, ih (by omega), hcount, List.replicate_succ, Bytes.store]
    · have hnone : (8 - i).toNat = 0 := by omega
      rw [if_neg hlt, hnone]
      rfl

/-- A numeral padded with zeros to eight places. -/
def paddedText (n : Nat) : List UInt8 :=
  List.replicate (8 - (numeralText 16 n).length) zeroDigit ++ numeralText 16 n

theorem length_numeralText_hex (value : UInt32) : (numeralText 16 value.toNat).length ≤ 8 :=
  length_numeralText_le (by decide) (by decide) value.toNat_lt

theorem length_paddedText (value : UInt32) : (paddedText value.toNat).length = 8 := by
  have hlength := length_numeralText_hex value
  rw [paddedText, List.length_append, List.length_replicate]
  omega

theorem convertHex_eq (alternate : Bool) (value : UInt32) (convBuf : Bytes) :
    convertHex alternate value convBuf =
      some (if alternate then paddedText value.toNat else numeralText 16 value.toNat) := by
  have hradix : (16 : UInt32).toNat = 16 := rfl
  cases alternate with
  | false =>
    simp only [convertHex, itoa_eq (show 1 < (16 : UInt32).toNat by decide) (by decide), hradix,
      Option.bind_eq_bind, Option.bind_some, Bool.false_eq_true, if_false]
    exact puts_numeral (by decide) (by decide) value 0 convBuf
  | true =>
    have hlength := length_numeralText_hex value
    have hnonzero := numeralText_ne_zero (b := 16) (by decide) (by decide) value.toNat
    have hstrlen := strlen_holds (Bytes.holds_store hnonzero 8 convBuf)
      (lt_of_le_of_lt hlength (by decide))
    simp only [convertHex, itoa_eq (show 1 < (16 : UInt32).toNat by decide) (by decide), hradix,
      Option.bind_eq_bind, Option.bind_some, hstrlen, if_true]
    have hplaces : (8 - ((numeralText 16 value.toNat).length : Int)).toNat =
        8 - (numeralText 16 value.toNat).length := by omega
    have hpad : padZeros 8 (numeralText 16 value.toNat).length
        (Bytes.store (numeralText 16 value.toNat ++ [0]) 8 convBuf) =
          Bytes.store (paddedText value.toNat ++ [0]) (numeralText 16 value.toNat).length
            convBuf := by
      have hend : ((numeralText 16 value.toNat).length : Int) +
          (8 - (numeralText 16 value.toNat).length : Nat) = 8 := by omega
      rw [padZeros_eq (by omega), hplaces, Bytes.store_comm (by rw [List.length_replicate, hend]),
        paddedText, List.append_assoc, Bytes.store_append (List.replicate _ _),
        List.length_replicate, hend]
    rw [hpad]
    refine puts_holds (Bytes.holds_store ?_ _ convBuf) ?_
    · intro c hc
      rcases List.mem_append.mp hc with hc | hc
      · rw [List.eq_of_mem_replicate hc]
        decide
      · exact hnonzero c hc
    · rw [length_paddedText]
      decide

/-! ## Exact numerals -/

/-- The digit `d` as one of `0` to `9` and `A` to `Z`. -/
def glyph (d : Nat) : UInt8 := if d < 10 then 0x30 + d.toUInt8 else 0x41 + (d - 10).toUInt8

theorem numeralText_eq_glyphs {b : Nat} (hb : 1 < b) (hb36 : b ≤ 36) (n : Nat) :
    numeralText b n = (numeral b n).map glyph := by
  refine List.map_congr_left fun d hd => ?_
  exact digitChar_eq (Nat.lt_of_lt_of_le ((isNumeral_numeral hb n).digit d hd) hb36)

/-- `itoa` leaves the canonical numeral of `value` at `buf`, in 33 bytes at most. -/
def WritesNumeral (value radix : UInt32) (buf : Int) (m : Bytes) : Prop :=
  ∃ ds m', IsNumeral radix.toNat value.toNat ds ∧ itoa value buf radix m = some m' ∧
    (m'.shift buf).Holds (ds.map glyph) ∧ ds.length + 1 ≤ 33 ∧
    ∀ i, (i < buf ∨ buf + ds.length + 1 ≤ i) → m' i = m i

theorem writesNumeral {radix : UInt32} (hradix : 1 < radix.toNat) (hradix36 : radix.toNat ≤ 36)
    (value : UInt32) (buf : Int) (m : Bytes) : WritesNumeral value radix buf m := by
  have hlength := length_numeralText_word hradix value
  have hglyphs := numeralText_eq_glyphs hradix hradix36 value.toNat
  have hnumeral : (numeralText radix.toNat value.toNat).length =
      (numeral radix.toNat value.toNat).length := List.length_map _
  refine ⟨numeral radix.toNat value.toNat, _, isNumeral_numeral hradix _,
    itoa_eq hradix hradix36 value buf m, ?_, by omega, fun i hi => ?_⟩
  · rw [← hglyphs]
    exact Bytes.holds_store (numeralText_ne_zero hradix hradix36 _) buf m
  · refine Bytes.store_outside ?_
    rw [List.length_append, hnumeral, List.length_singleton]
    push_cast
    omega

section Cases

variable {call : Call} {alternate : Bool} {s : Scan}

theorem feed_conversion {c : UInt8} (hphase : s.phase = .specification alternate)
    (hc : c ≠ hash) : call.feed c s = (call.convert alternate c s).map (Scan.next .text) := by
  simp only [Call.feed, hphase, if_neg hc]

theorem convert_letterX : call.convert alternate letterX s =
    (convertHex alternate (call.arg s.esp) (call.convBuf s.buf)).map
      fun text => s.emit text 1 := rfl

theorem convert_letterU : call.convert alternate letterU s =
    (convertUnsigned (call.arg s.esp) (call.convBuf s.buf)).map fun text => s.emit text 1 := rfl

theorem convert_letterD : call.convert alternate letterD s =
    (convertSigned (call.arg s.esp) (call.convBuf s.buf)).map fun text => s.emit text 1 := rfl

theorem convert_letterS : call.convert alternate letterS s =
    (puts (call.string (call.arg s.esp))).map fun text => s.emit text 1 := rfl

end Cases

/-- At the character of a number conversion, the step prints the numeral of the argument
that `esp` points to. -/
structure PrintsNumbers (call : Call) (s : Scan) : Prop where
  unsigned : ∀ alternate, s.phase = .specification alternate →
    ∃ ds, IsNumeral 10 (call.arg s.esp).toNat ds ∧
      call.feed letterU s = some ((s.emit (ds.map glyph) 1).next .text)
  signed : ∀ alternate, s.phase = .specification alternate →
    ∃ ds, IsNumeral 10 (i32 (call.arg s.esp).toNat).natAbs ds ∧
      call.feed letterD s =
        some ((s.emit ((if i32 (call.arg s.esp).toNat < 0 then [minus] else []) ++ ds.map glyph)
          1).next .text)
  hexadecimal : s.phase = .specification false →
    ∃ ds, IsNumeral 16 (call.arg s.esp).toNat ds ∧
      call.feed letterX s = some ((s.emit (ds.map glyph) 1).next .text)
  padded : s.phase = .specification true →
    ∃ zeros ds, zeros + ds.length = 8 ∧ IsNumeral 16 (call.arg s.esp).toNat ds ∧
      call.feed letterX s =
        some ((s.emit (List.replicate zeros zeroDigit ++ ds.map glyph) 1).next .text)

theorem printsNumbers (call : Call) (s : Scan) : PrintsNumbers call s where
  unsigned := by
    intro alternate hphase
    refine ⟨_, isNumeral_numeral (by decide) _, ?_⟩
    rw [← numeralText_eq_glyphs (by decide) (by decide), feed_conversion hphase (by decide),
      convert_letterU, convertUnsigned_eq]
    rfl
  signed := by
    intro alternate hphase
    refine ⟨_, isNumeral_numeral (by decide) _, ?_⟩
    rw [← numeralText_eq_glyphs (by decide) (by decide), feed_conversion hphase (by decide),
      convert_letterD, convertSigned_eq, signedText]
    by_cases hneg : i32 (call.arg s.esp).toNat < 0
    · rw [if_pos hneg, if_pos hneg, Option.map_some, Option.map_some, List.singleton_append]
    · rw [if_neg hneg, if_neg hneg, Option.map_some, Option.map_some, List.nil_append]
  hexadecimal := by
    intro hphase
    refine ⟨_, isNumeral_numeral (by decide) _, ?_⟩
    rw [← numeralText_eq_glyphs (by decide) (by decide), feed_conversion hphase (by decide),
      convert_letterX, convertHex_eq]
    rfl
  padded := by
    intro hphase
    have hlength := length_numeralText_hex (call.arg s.esp)
    rw [numeralText, List.length_map] at hlength
    refine ⟨8 - (numeral 16 (call.arg s.esp).toNat).length, _, by omega,
      isNumeral_numeral (by decide) _, ?_⟩
    rw [← numeralText_eq_glyphs (by decide) (by decide), feed_conversion hphase (by decide),
      convert_letterX, convertHex_eq, if_pos rfl, paddedText, numeralText, List.length_map]
    rfl

/-- `itoa` writes the canonical numeral of every word in every radix from 2 to 36, and
the number conversions of `printf` print the numerals of their argument. -/
theorem numbers_exact {radix : UInt32} (h2 : 2 ≤ radix.toNat) (h36 : radix.toNat ≤ 36)
    (value : UInt32) (buf : Int) (m : Bytes) (call : Call) (s : Scan) :
    WritesNumeral value radix buf m ∧ PrintsNumbers call s :=
  ⟨writesNumeral h2 h36 value buf m, printsNumbers call s⟩

/-- The word with all bits set in binary, and -2^31 as an argument. -/
theorem numbers_exact_word :
    WritesNumeral 0xFFFFFFFF 2 0 (Bytes.ofList []) ∧
      PrintsNumbers
        { ram := fun _ => 0, format := 0, arg := fun _ => 0x80000000,
          convBuf := fun _ => Bytes.ofList [] }
        { Scan.start with phase := .specification true } :=
  numbers_exact (by decide) (by decide) _ _ _ _ _

end Lib

end StudentDistrib
