import DivisionMicrocode.Proofs.TraceLines
import Mathlib.Data.List.TakeWhile
/-!
# The grammar of trace lines

The reader of trace lines accepts far more than is ever printed: numerals of any length and with a
sign, any mark for a flag, tokens at any distance, and any text behind them. `Spells` says what the
tokens of a snapshot are without the reader, and `Spaced` how a text holds its tokens; the reader
accepts what they allow and nothing else (`ofLine_accepts`).
-/

namespace DivisionMicrocode

namespace Text

/-- A text is some tokens in order, none of them empty or with white space inside, with white space
between each two of them and any amount of it at the two ends. -/
inductive Spaced : List (List Char) → List Char → Prop
  | blank {gap : List Char} (hgap : ∀ c ∈ gap, isWhiteSpace c = true) : Spaced [] gap
  | last {gap t : List Char} (hgap : ∀ c ∈ gap, isWhiteSpace c = true) (hne : t ≠ [])
      (ht : ∀ c ∈ t, isWhiteSpace c = false) : Spaced [t] (gap ++ t)
  | cons {gap t cs : List Char} {c : Char} {ts : List (List Char)}
      (hgap : ∀ c ∈ gap, isWhiteSpace c = true) (hne : t ≠ [])
      (ht : ∀ c ∈ t, isWhiteSpace c = false) (hc : isWhiteSpace c = true) (h : Spaced ts cs) :
      Spaced (t :: ts) (gap ++ (t ++ c :: cs))

theorem tokens_append_of_forall_isWhiteSpace {gap : List Char}
    (h : ∀ c ∈ gap, isWhiteSpace c = true) (cs : List Char) : tokens (gap ++ cs) = tokens cs := by
  induction gap with
  | nil => rfl
  | cons c gap ih =>
    have htail := ih fun d hd => h d (List.mem_cons_of_mem c hd)
    exact (tokens_append_cons [] (gap ++ cs) (h c List.mem_cons_self)).trans htail

theorem Spaced.tokens_eq {ts : List (List Char)} {cs : List Char} (h : Spaced ts cs) :
    tokens cs = ts := by
  induction h with
  | blank hgap => exact tokens_of_forall_isWhiteSpace hgap
  | last hgap hne ht =>
    rw [tokens_append_of_forall_isWhiteSpace hgap, tokens_of_forall hne ht]
  | cons hgap hne ht hc _ ih =>
    rw [tokens_append_of_forall_isWhiteSpace hgap, tokens_append_cons _ _ hc,
      tokens_of_forall hne ht, ih, List.singleton_append]

/-- A text begins with a stretch of characters of one kind, behind which comes another kind. -/
theorem exists_stretch (p : Char → Bool) (cs : List Char) :
    ∃ front rest, cs = front ++ rest ∧ (∀ c ∈ front, p c = true) ∧
      ∀ c ∈ rest.head?, p c = false := by
  refine ⟨cs.takeWhile p, cs.dropWhile p, List.takeWhile_append_dropWhile.symm,
    fun c hc => List.mem_takeWhile_imp hc, fun c hc => ?_⟩
  have hhead := List.head?_dropWhile_not p cs
  rwa [Option.mem_def.1 hc] at hhead

theorem exists_spaced (cs : List Char) : ∃ ts, Spaced ts cs := by
  induction hn : cs.length using Nat.strongRecOn generalizing cs with
  | ind n ih =>
    obtain ⟨gap, word, rfl, hgap, hword⟩ := exists_stretch isWhiteSpace cs
    obtain ⟨t, rest, rfl, ht, hrest⟩ := exists_stretch (!isWhiteSpace ·) word
    have ht' : ∀ c ∈ t, isWhiteSpace c = false := fun c hc => by simpa using ht c hc
    cases t with
    | nil =>
      -- neither kind of character comes next, so the text ends here
      cases rest with
      | nil => exact ⟨[], by simpa using .blank hgap⟩
      | cons c rest =>
        have hother := hrest c rfl
        rw [hword c rfl] at hother
        exact nomatch hother
    | cons d t =>
      cases rest with
      | nil =>
        rw [List.append_nil]
        exact ⟨[d :: t], .last hgap (List.cons_ne_nil d t) ht'⟩
      | cons c rest =>
        have hc : isWhiteSpace c = true := by simpa using hrest c rfl
        obtain ⟨ts, hts⟩ := ih rest.length (by simp at hn; omega) rest rfl
        exact ⟨(d :: t) :: ts, .cons hgap (List.cons_ne_nil d t) ht' hc hts⟩

theorem tokens_eq_iff {cs : List Char} {ts : List (List Char)} :
    tokens cs = ts ↔ Spaced ts cs := by
  refine ⟨?_, Spaced.tokens_eq⟩
  rintro rfl
  obtain ⟨ts, hts⟩ := exists_spaced cs
  rw [hts.tokens_eq]
  exact hts

end Text

open Text

/-- A text is the five flags in the order of the status register: a point for each that is clear,
and any other character for each that is set. -/
def Flags.Spells (f : Flags) (cs : List Char) : Prop :=
  ∃ x n z v c, cs = [x, n, z, v, c] ∧ (x ≠ '.' ↔ f.extend = true) ∧
    (n ≠ '.' ↔ f.negative = true) ∧ (z ≠ '.' ↔ f.zero = true) ∧ (v ≠ '.' ↔ f.overflow = true) ∧
    (c ≠ '.' ↔ f.carry = true)

theorem Flags.ofList?_eq_some_iff {f : Flags} {cs : List Char} :
    Flags.ofList? cs = some f ↔ f.Spells cs := by
  constructor
  · intro h
    unfold Flags.ofList? at h
    split at h
    case h_1 x n z v c =>
      obtain rfl := Option.some.inj h
      exact ⟨x, n, z, v, c, rfl, bne_iff_ne.symm, bne_iff_ne.symm, bne_iff_ne.symm,
        bne_iff_ne.symm, bne_iff_ne.symm⟩
    case h_2 => exact nomatch h
  · rintro ⟨x, n, z, v, c, rfl, hx, hn, hz, hv, hc⟩
    simp only [← bne_iff_ne, Bool.coe_iff_coe] at hx hn hz hv hc
    rw [Flags.ofList?, hx, hn, hz, hv, hc]

namespace Snapshot

variable {s : Snapshot} {ts : List (List Char)} {token : Option (List Char)}

/-! ## The grammar -/

/-- There is a token, and it is a tag with a numeral behind it. -/
def Shows (tag : String) (radix n : Nat) (token : Option (List Char)) : Prop :=
  ∃ value, token = some (tag.toList ++ value) ∧ Numeral.IsNumeral radix value n

/-- The first nine tokens are the fields of a trace line for a snapshot. -/
structure Spells (s : Snapshot) (ts : List (List Char)) : Prop where
  microword : ts[0]? = some s.microword.label.toList
  counter : Shows "AU:" 16 s.counter.toNat ts[1]?
  alu : Shows "ALU:" 2 s.alu.toNat ts[2]?
  aluExt : Shows "ALUE:" 2 s.aluExt.toNat ts[3]?
  aluBuf : Shows "ALUB:" 2 s.aluBuf.toNat ts[4]?
  dividend : ∃ hi lo, ts[5]? = some ("RX:".toList ++ (hi ++ ':' :: lo)) ∧
    Numeral.IsNumeral 16 hi s.dividendHi.toNat ∧ Numeral.IsNumeral 16 lo s.dividendLo.toNat
  divisor : Shows "RY:" 16 s.divisor.toNat ts[6]?
  flags : ∃ cs, ts[7]? = some cs ∧ s.flags.Spells cs
  cycles : Shows "CYC:" 10 s.cycles.toNat ts[8]?

/-! ## What each reader accepts -/

theorem bind_eq_ok_iff {α β : Type} {x : Except ParseError α} {f : α → Except ParseError β}
    {b : β} : (x >>= f) = .ok b ↔ ∃ a, x = .ok a ∧ f a = .ok b := by
  cases x <;> simp [bind, Except.bind]

theorem readMicroword_eq_ok_iff {w : Microword} :
    readMicroword token = .ok w ↔ token = some w.label.toList := by
  cases token with
  | none => simp [readMicroword]
  | some cs =>
    have hlabel : Microword.ofLabel? (String.ofList cs) = some w ↔ cs = w.label.toList := by
      rw [Microword.ofLabel?_eq_some_iff]
      exact ⟨fun h => by rw [← h, String.toList_ofList], fun h => by rw [h, String.ofList_toList]⟩
    rw [Option.some_inj, ← hlabel, readMicroword]
    cases Microword.ofLabel? (String.ofList cs) <;> simp

theorem readField_eq_ok_iff {tag : Tag} {value : List Char} :
    readField tag token = .ok value ↔ token = some (tag.text.toList ++ value) := by
  cases token with
  | none => simp [readField]
  | some cs =>
    rw [Option.some_inj, eq_comm (a := cs), ← List.isPrefixOf?_eq_some_iff_append_eq, readField]
    cases tag.text.toList.isPrefixOf? cs <;> simp

theorem readNumeral_eq_ok_iff {field : NumeralField} {radix bits : Nat} {cs : List Char}
    {x : BitVec bits} (hradix : 0 < radix) (hradix' : radix ≤ 16) :
    readNumeral field radix bits cs = .ok x ↔ Numeral.IsNumeral radix cs x.toNat := by
  rw [← Numeral.read_eq_ok_iff_isNumeral hradix hradix', readNumeral]
  cases Numeral.read radix bits cs <;> simp [Except.mapError]

theorem splitAtColon_eq_ok_iff {cs hi lo : List Char} :
    splitAtColon cs = .ok (hi, lo) ↔ cs = hi ++ ':' :: lo ∧ ':' ∉ hi := by
  constructor
  · intro h
    obtain ⟨front, rest, rfl, hfront, hrest⟩ := exists_stretch (· != ':') cs
    have hcolon : ':' ∉ front := fun hmem => by simpa using hfront ':' hmem
    cases rest with
    | nil =>
      rw [List.append_nil, splitAtColon, List.dropWhile_eq_nil_iff.2 hfront] at h
      cases h
    | cons c rest =>
      obtain rfl : c = ':' := by simpa using hrest c rfl
      rw [splitAtColon_append hcolon] at h
      obtain ⟨rfl, rfl⟩ := Prod.mk.inj (Except.ok.inj h)
      exact ⟨rfl, hcolon⟩
  · rintro ⟨rfl, hhi⟩
    exact splitAtColon_append hhi lo

theorem readFlags_eq_ok_iff {f : Flags} :
    readFlags token = .ok f ↔ ∃ cs, token = some cs ∧ f.Spells cs := by
  cases token with
  | none => simp [readFlags]
  | some cs =>
    simp only [Option.some_inj, exists_eq_left', ← Flags.ofList?_eq_some_iff, readFlags]
    cases Flags.ofList? cs <;> simp

theorem exists_shows {tag : Tag} {radix bits : Nat} {P : BitVec bits → Prop} :
    (∃ value, token = some (tag.text.toList ++ value) ∧
        ∃ x : BitVec bits, Numeral.IsNumeral radix value x.toNat ∧ P x) ↔
      ∃ x : BitVec bits, Shows tag.text radix x.toNat token ∧ P x := by
  constructor
  · rintro ⟨value, htoken, x, hx, hP⟩
    exact ⟨x, ⟨value, htoken, hx⟩, hP⟩
  · rintro ⟨x, ⟨value, htoken, hx⟩, hP⟩
    exact ⟨value, htoken, x, hx, hP⟩

theorem ofTokens_eq_ok_iff : ofTokens ts = .ok s ↔ Spells s ts := by
  simp (disch := decide) only [ofTokens, bind_eq_ok_iff, Prod.exists, readMicroword_eq_ok_iff,
    readField_eq_ok_iff, readNumeral_eq_ok_iff, splitAtColon_eq_ok_iff, readFlags_eq_ok_iff,
    exists_shows, pure, Except.pure, Except.ok.injEq]
  constructor
  · rintro ⟨w, hw, counter, hcounter, alu, halu, ext, hext, buf, hbuf, _, hrx, hi, lo, ⟨rfl, -⟩, _,
      hhi, _, hlo, divisor, hdivisor, f, hf, cycles, hcycles, rfl⟩
    exact ⟨hw, hcounter, halu, hext, hbuf, ⟨hi, lo, hrx, hhi, hlo⟩, hdivisor, hf, hcycles⟩
  · rintro ⟨hw, hcounter, halu, hext, hbuf, ⟨hi, lo, hrx, hhi, hlo⟩, hdivisor, hf, hcycles⟩
    have hcolon : ':' ∉ hi :=
      Numeral.notMem_of_isNumeral (Nat.le_refl 16) hhi (by decide) (by decide)
    exact ⟨_, hw, _, hcounter, _, halu, _, hext, _, hbuf, _, hrx, hi, lo, ⟨rfl, hcolon⟩, _, hhi, _,
      hlo, _, hdivisor, _, hf, _, hcycles, rfl⟩

/-- What stands behind the ninth token does not matter. -/
theorem ofTokens_take (ts : List (List Char)) : ofTokens (ts.take 9) = ofTokens ts := by
  simp [ofTokens]

/-- A text is read as a snapshot exactly if its first nine tokens are the fields of a trace line
for the snapshot. How the tokens are spaced does not matter, and neither does what follows them. -/
theorem ofLine_accepts :
    (∀ (text : String) (s : Snapshot),
      ofLine text = .ok s ↔ ∃ ts, Spaced ts text.toList ∧ Spells s ts) ∧
    ∀ (text text' : String) (ts ts' : List (List Char)),
      Spaced ts text.toList → Spaced ts' text'.toList → ts.take 9 = ts'.take 9 →
        ofLine text = ofLine text' := by
  constructor
  · intro text s
    simp only [← tokens_eq_iff, exists_eq_left', ← ofTokens_eq_ok_iff]
    rfl
  · intro text text' ts ts' hts hts' htake
    rw [ofLine, ofLine, hts.tokens_eq, hts'.tokens_eq, ← ofTokens_take ts, htake, ofTokens_take]

/-- A line with signs, superfluous zeros, letters of both cases, other white space than blanks, and
text behind the clock; and the same line without all that is superfluous between its tokens. -/
theorem ofLine_accepts_lenient :
    let s : Snapshot :=
      { microword := .unsigned .dvum5
        counter := 0xABCD
        alu := 0
        aluExt := 0x3A
        aluBuf := 5
        dividendHi := 0xF
        dividendLo := 0x1D
        divisor := 0x10
        flags := { zero := true, carry := true }
        cycles := 6 }
    let ts := ["DVUM5", "AU:+aBcD", "ALU:000000000000000000", "ALUE:111010", "ALUB:+0101",
      "RX:+0f:00001D", "RY:10", "..?.+", "CYC:+006"].map String.toList
    let text := "\u3000DVUM5\tAU:+aBcD  ALU:000000000000000000 ALUE:111010 ALUB:+0101\n" ++
      "RX:+0f:00001D RY:10 ..?.+ CYC:+006 and so on "
    let text' := "DVUM5 AU:+aBcD ALU:000000000000000000 ALUE:111010 ALUB:+0101 " ++
      "RX:+0f:00001D RY:10 ..?.+ CYC:+006"
    Spaced (ts ++ ["and", "so", "on"].map String.toList) text.toList ∧ Spaced ts text'.toList ∧
      ofLine text = .ok s ∧ ofLine text' = ofLine text := by
  intro s ts text text'
  have hspaced : Spaced (ts ++ ["and", "so", "on"].map String.toList) text.toList :=
    tokens_eq_iff.1 (by decide +kernel)
  have hspaced' : Spaced ts text'.toList := tokens_eq_iff.1 (by decide +kernel)
  have hspells : Spells s (ts ++ ["and", "so", "on"].map String.toList) :=
    ofTokens_eq_ok_iff.1 (by decide +kernel)
  exact ⟨hspaced, hspaced', (ofLine_accepts.1 text s).2 ⟨_, hspaced, hspells⟩,
    ofLine_accepts.2 text' text _ _ hspaced' hspaced rfl⟩

end Snapshot

end DivisionMicrocode
