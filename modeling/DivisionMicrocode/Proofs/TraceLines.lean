import DivisionMicrocode.Proofs.Numerals
import DivisionMicrocode.Snapshot.Parser
import Mathlib.Data.List.Infix
/-!
# Reading printed trace lines

A printed line has nine tokens, its fields without the blanks behind the label, and reading undoes
the printing of each. A trace line therefore shows everything that a snapshot holds.
-/

namespace DivisionMicrocode

open Text

namespace Snapshot

/-! ## The tokens of a printed line -/

theorem isWhiteSpace_of_mem_text (tag : Tag) : ∀ c ∈ tag.text.toList, isWhiteSpace c = false := by
  apply isWhiteSpace_of_all
  cases tag <;> decide

theorem tokens_tagged (tag : Tag) {value : List Char}
    (h : ∀ c ∈ value, isWhiteSpace c = false) :
    tokens (tag.text.toList ++ value) = [tag.text.toList ++ value] := by
  refine tokens_of_forall ?_ (List.forall_mem_append.2 ⟨isWhiteSpace_of_mem_text tag, h⟩)
  cases tag <;> exact List.cons_ne_nil _ _

theorem tokens_numeral (tag : Tag) {radix : Nat} (hradix : 1 < radix) (hradix' : radix ≤ 16)
    (width n : Nat) :
    tokens (tag.text.toList ++ Numeral.write radix width n) =
      [tag.text.toList ++ Numeral.write radix width n] :=
  tokens_tagged tag (Numeral.isWhiteSpace_of_mem_write hradix hradix')

theorem isAlphanum_of_mem_label (w : Microword) : ∀ c ∈ w.label.toList, c.isAlphanum = true := by
  rcases w with w | w | w <;> cases w <;>
    simp [Microword.label, UnsignedWord.label, SignedWord.label, ExitWord.label]

theorem label_ne_nil (w : Microword) : w.label.toList ≠ [] := by
  intro h
  have hread := Microword.ofLabel?_label w
  rw [String.toList_eq_nil_iff.1 h] at hread
  exact nomatch hread

theorem tokens_label (w : Microword) : tokens w.label.toList = [w.label.toList] :=
  tokens_of_forall (label_ne_nil w) fun c hc =>
    isWhiteSpace_of_isAlphanum (isAlphanum_of_mem_label w c hc)

theorem tokens_flags (f : Flags) : tokens f.toList = [f.toList] := by
  refine tokens_of_forall (List.cons_ne_nil _ _) ?_
  simp only [Flags.toList, List.forall_mem_cons]
  refine ⟨?_, ?_, ?_, ?_, ?_, nofun⟩ <;> split <;> rfl

/-- The tokens of a printed line are its fields, the label without its blanks. -/
theorem tokens_line (s : Snapshot) :
    tokens s.line.toList = s.microword.label.toList :: s.fields.tail := by
  have hfields : tokens s.line.toList = s.fields.flatMap tokens := by
    rw [line, String.toList_ofList]
    exact tokens_intercalate rfl s.fields
  have hdividend : ∀ c ∈ Numeral.write 16 4 s.dividendHi.toNat ++
      ':' :: Numeral.write 16 4 s.dividendLo.toNat, isWhiteSpace c = false :=
    List.forall_mem_append.2 ⟨Numeral.isWhiteSpace_of_mem_write (by decide) (by decide),
      List.forall_mem_cons.2 ⟨rfl, Numeral.isWhiteSpace_of_mem_write (by decide) (by decide)⟩⟩
  rw [hfields, fields]
  simp (disch := decide) only [List.flatMap_cons, List.flatMap_nil, List.append_assoc,
    tokens_rightpad, tokens_label, tokens_flags, tokens_tagged .rx hdividend, tokens_numeral]
  rfl

/-! ## Reading each field back -/

@[simp] theorem readMicroword_label (w : Microword) :
    readMicroword (some w.label.toList) = .ok w := by
  simp [readMicroword]

@[simp] theorem readField_tagged (tag : Tag) (value : List Char) :
    readField tag (some (tag.text.toList ++ value)) = .ok value := by
  simp [readField, List.isPrefixOf?_eq_some_iff_append_eq.2 rfl]

theorem readNumeral_write (field : NumeralField) {radix bits : Nat} (width : Nat)
    (hradix : 1 < radix) (hradix' : radix ≤ 16) (x : BitVec bits) :
    readNumeral field radix bits (Numeral.write radix width x.toNat) = .ok x := by
  rw [readNumeral, Numeral.read_write hradix hradix']
  rfl

theorem splitAtColon_append {hi : List Char} (h : ':' ∉ hi) (lo : List Char) :
    splitAtColon (hi ++ ':' :: lo) = .ok (hi, lo) := by
  have hhi : ∀ c ∈ hi, (c != ':') = true := fun c hc => bne_iff_ne.2 fun heq => h (heq ▸ hc)
  rw [splitAtColon, List.dropWhile_append_of_pos hhi, List.takeWhile_append_of_pos hhi]
  simp

@[simp] theorem readFlags_toList (f : Flags) : readFlags (some f.toList) = .ok f := by
  simp [readFlags]

theorem ofLine_line (s : Snapshot) : ofLine s.line = .ok s := by
  have hcolon : ':' ∉ Numeral.write 16 4 s.dividendHi.toNat :=
    Numeral.notMem_of_value? (Numeral.value?_write (by decide) (by decide) 4 _) (by decide)
  rw [ofLine, tokens_line, fields, ofTokens]
  simp (disch := decide) only [List.tail_cons, List.getElem?_cons_zero, List.getElem?_cons_succ,
    List.append_assoc, readMicroword_label, readField_tagged, readNumeral_write,
    splitAtColon_append hcolon, readFlags_toList, bind, Except.bind, pure, Except.pure]

/-- Printing loses nothing: a printed line is read as the snapshot that it shows, so two snapshots
never share a line. -/
theorem line_faithful :
    (∀ s : Snapshot, ofLine s.line = .ok s) ∧ Function.Injective line := by
  refine ⟨ofLine_line, fun s t h => ?_⟩
  have hread : ofLine s.line = ofLine t.line := congrArg ofLine h
  rw [ofLine_line, ofLine_line] at hread
  exact Except.ok.inj hread

example :
    line
        { microword := .unsigned .dvum5
          counter := 0xF
          alu := 0
          aluExt := 0x3A
          aluBuf := 5
          dividendHi := 0
          dividendLo := 0x1D
          divisor := 5
          flags := { zero := true }
          cycles := 6 } =
      "DVUM5 AU:0000000f ALU:0000000000000000 ALUE:0000000000111010 " ++
        "ALUB:0000000000000101 RX:0000:001d RY:0005 ..Z.. CYC:6" := by
  cbv

end Snapshot

end DivisionMicrocode
