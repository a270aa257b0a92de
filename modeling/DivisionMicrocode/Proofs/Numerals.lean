import DivisionMicrocode.Text.Numeral
import DivisionMicrocode.Text.WhiteSpace
import Mathlib.Data.List.Forall2
import Mathlib.Data.Nat.Digits.Defs
import Mathlib.Tactic.IntervalCases
import Mathlib.Tactic.Ring
/-!
# Reading and writing numerals

What a text of digits stands for does not depend on the bound that the reader keeps below: the
reader accepts a text just when it stands for a number below the bound, and a written number stands
for itself. `IsNumeral` says what a numeral is by its digits alone, and the reader accepts nothing
else (`read_eq_ok_iff_isNumeral`).
-/

namespace DivisionMicrocode.Text.Numeral

variable {radix bound bits width acc d n : Nat} {c : Char} {cs : List Char}

/-- The number that digits stand for when they follow digits that stand for `acc`. -/
def valueFrom? (radix : Nat) : Nat → List Char → Option Nat :=
  List.foldlM fun acc c => (digit? radix c).map (acc * radix + ·)

def value? (radix : Nat) (cs : List Char) : Option Nat := valueFrom? radix 0 cs

theorem valueFrom?_cons (radix acc : Nat) (c : Char) (cs : List Char) :
    valueFrom? radix acc (c :: cs) =
      (digit? radix c).bind fun d => valueFrom? radix (acc * radix + d) cs := by
  simp [valueFrom?, List.foldlM_cons, Option.bind_map]

theorem valueFrom?_append (radix acc : Nat) (cs ds : List Char) :
    valueFrom? radix acc (cs ++ ds) =
      (valueFrom? radix acc cs).bind fun n => valueFrom? radix n ds :=
  List.foldlM_append

/-! ## Digits -/

theorem digit?_eq_some_iff : digit? radix c = some d ↔ digitValue? c = some d ∧ d < radix := by
  simp [digit?, Option.filter_eq_some_iff]

theorem digitValue?_digitChar (hd : d < 16) : digitValue? d.digitChar = some d := by
  interval_cases d <;> decide

theorem digit?_digitChar (hradix : radix ≤ 16) (hd : d < radix) :
    digit? radix d.digitChar = some d :=
  digit?_eq_some_iff.2 ⟨digitValue?_digitChar (hd.trans_le hradix), hd⟩

theorem digitValue?_of_isWhiteSpace (h : isWhiteSpace c = true) : digitValue? c = none := by
  have hnone : whiteSpace.all (fun c => (digitValue? c).isNone) = true := by decide
  exact Option.isNone_iff_eq_none.1 (List.all_eq_true.1 hnone c (List.contains_iff_mem.1 h))

theorem exists_digit_of_value? (h : valueFrom? radix acc cs = some n) :
    ∀ c ∈ cs, ∃ d, digitValue? c = some d := by
  induction cs generalizing acc with
  | nil => exact nofun
  | cons c cs ih =>
    rw [valueFrom?_cons, Option.bind_eq_some_iff] at h
    obtain ⟨d, hd, h⟩ := h
    exact List.forall_mem_cons.2 ⟨⟨d, (digit?_eq_some_iff.1 hd).1⟩, ih h⟩

theorem notMem_of_value? (h : value? radix cs = some n) (hc : digitValue? c = none) : c ∉ cs := by
  intro hmem
  obtain ⟨d, hd⟩ := exists_digit_of_value? h c hmem
  rw [hc] at hd
  exact nomatch hd

/-! ## Reading -/

theorem le_of_valueFrom? (hradix : 0 < radix) (h : valueFrom? radix acc cs = some n) : acc ≤ n := by
  induction cs generalizing acc with
  | nil => exact (Option.some.inj h).le
  | cons c cs ih =>
    rw [valueFrom?_cons, Option.bind_eq_some_iff] at h
    obtain ⟨d, -, h⟩ := h
    calc acc ≤ acc * radix := Nat.le_mul_of_pos_right acc hradix
      _ ≤ acc * radix + d := Nat.le_add_right _ _
      _ ≤ n := ih h

theorem accumulate_eq_ok_iff (hradix : 0 < radix) (hacc : acc < bound) :
    accumulate radix bound acc cs = .ok n ↔ valueFrom? radix acc cs = some n ∧ n < bound := by
  induction cs generalizing acc with
  | nil =>
    simp only [accumulate, valueFrom?, List.foldlM_nil, Option.pure_def, Except.ok.injEq,
      Option.some.injEq]
    exact ⟨fun h => ⟨h, h ▸ hacc⟩, fun h => h.1⟩
  | cons c cs ih =>
    rw [accumulate, valueFrom?_cons]
    cases digit? radix c with
    | none => simp
    | some d =>
      simp only [Option.bind_some]
      split
      case isTrue hlt => exact ih hlt
      case isFalse hge =>
        -- the digits that follow make the number no smaller, so it is too large at the end as well
        refine iff_of_false nofun fun h => hge ?_
        exact (le_of_valueFrom? hradix h.1).trans_lt h.2

theorem read_eq_ok_iff (hradix : 0 < radix) {x : BitVec bits} :
    read radix bits cs = .ok x ↔ cs ≠ [] ∧ value? radix (unsigned cs) = some x.toNat := by
  cases cs with
  | nil => simp [read]
  | cons c cs =>
    have hbound : 1 <<< bits = 2 ^ bits := Nat.one_shiftLeft bits
    have hread : read radix bits (c :: cs) =
        (accumulate radix (1 <<< bits) 0 (unsigned (c :: cs))).map (BitVec.ofNat bits) := rfl
    have hiff (n : Nat) : accumulate radix (1 <<< bits) 0 (unsigned (c :: cs)) = .ok n ↔
        value? radix (unsigned (c :: cs)) = some n ∧ n < 2 ^ bits := by
      rw [hbound]
      exact accumulate_eq_ok_iff hradix (Nat.two_pow_pos bits)
    rw [hread]
    constructor
    · intro h
      cases haccumulate : accumulate radix (1 <<< bits) 0 (unsigned (c :: cs)) with
      | error e =>
        rw [haccumulate] at h
        exact nomatch h
      | ok n =>
        rw [haccumulate] at h
        obtain ⟨hvalue, hn⟩ := (hiff n).1 haccumulate
        obtain rfl : BitVec.ofNat bits n = x := Except.ok.inj h
        refine ⟨List.cons_ne_nil c cs, ?_⟩
        rw [hvalue, BitVec.toNat_ofNat, Nat.mod_eq_of_lt hn]
    · rintro ⟨-, hvalue⟩
      rw [(hiff x.toNat).2 ⟨hvalue, x.isLt⟩, Except.map, BitVec.ofNat_toNat, BitVec.setWidth_eq]

theorem unsigned_of_value? (h : value? radix cs = some n) : unsigned cs = cs := by
  unfold unsigned
  split
  -- a sign is no digit
  case h_1 c cs => exact absurd List.mem_cons_self (notMem_of_value? h (by decide))
  case h_2 => rfl

/-! ## Writing -/

theorem value?_toDigits (hradix : 1 < radix) (hradix' : radix ≤ 16) (n : Nat) :
    value? radix (Nat.toDigits radix n) = some n := by
  induction n using Nat.strongRecOn with
  | ind n ih =>
    rcases Nat.lt_or_ge n radix with hn | hn
    case inl =>
      rw [Nat.toDigits_of_lt_base hn, value?, valueFrom?_cons, digit?_digitChar hradix' hn,
        Option.bind_some, Nat.zero_mul, Nat.zero_add]
      rfl
    case inr =>
      have hdigit : digit? radix (n % radix).digitChar = some (n % radix) :=
        digit?_digitChar hradix' (Nat.mod_lt n (Nat.zero_lt_of_lt hradix))
      have hquotient : valueFrom? radix 0 (Nat.toDigits radix (n / radix)) = some (n / radix) :=
        ih (n / radix) (Nat.div_lt_self (by omega) hradix)
      rw [Nat.toDigits_of_base_le hradix hn, value?, valueFrom?_append, hquotient,
        Option.bind_some, valueFrom?_cons, hdigit, Option.bind_some, Nat.div_add_mod']
      rfl

theorem value?_replicate_append (hradix : 0 < radix) (k : Nat) (cs : List Char) :
    value? radix (List.replicate k '0' ++ cs) = value? radix cs := by
  have hzero : digit? radix '0' = some 0 := digit?_eq_some_iff.2 ⟨rfl, hradix⟩
  induction k with
  | zero => rfl
  | succ k ih =>
    rw [List.replicate_succ, List.cons_append, value?, valueFrom?_cons, hzero, Option.bind_some,
      Nat.zero_mul]
    exact ih

theorem value?_write (hradix : 1 < radix) (hradix' : radix ≤ 16) (width n : Nat) :
    value? radix (write radix width n) = some n := by
  rw [write, List.leftpad, value?_replicate_append (Nat.zero_lt_of_lt hradix),
    value?_toDigits hradix hradix']

theorem write_injective (hradix : 1 < radix) (hradix' : radix ≤ 16) (width : Nat) :
    Function.Injective (write radix width) := by
  intro m n h
  apply Option.some.inj
  rw [← value?_write hradix hradix', h, value?_write hradix hradix']

theorem isWhiteSpace_of_mem_write (hradix : 1 < radix) (hradix' : radix ≤ 16) :
    ∀ c ∈ write radix width n, isWhiteSpace c = false := by
  intro c hc
  rw [Bool.eq_false_iff]
  intro h
  exact notMem_of_value? (value?_write hradix hradix' width n) (digitValue?_of_isWhiteSpace h) hc

theorem write_ne_nil (radix width n : Nat) : write radix width n ≠ [] :=
  List.append_ne_nil_of_right_ne_nil _ Nat.toDigits_ne_nil

theorem read_write (hradix : 1 < radix) (hradix' : radix ≤ 16) (x : BitVec bits) :
    read radix bits (write radix width x.toNat) = .ok x := by
  have hvalue := value?_write hradix hradix' width x.toNat
  refine (read_eq_ok_iff (Nat.zero_lt_of_lt hradix)).2 ⟨write_ne_nil _ _ _, ?_⟩
  rw [unsigned_of_value? hvalue, hvalue]

/-! ## What a numeral is -/

/-- A character stands for a value below the radix, in either case. -/
def IsDigit (radix : Nat) (c : Char) (d : Nat) : Prop :=
  d < radix ∧ (c = d.digitChar ∨ c = d.digitChar.toUpper)

/-- A text is a numeral of a number: at least one digit, the most significant first and with any
zeros in front, after a plus sign or none. -/
def IsNumeral (radix : Nat) (cs : List Char) (n : Nat) : Prop :=
  ∃ sign digits values, (sign = [] ∨ sign = ['+']) ∧ cs = sign ++ digits ∧ digits ≠ [] ∧
    List.Forall₂ (IsDigit radix) digits values ∧ n = Nat.ofDigits radix values.reverse

/-- The decimal digits, the lower-case letters and the upper-case letters each stand in a row. -/
theorem toNat_of_digitValue? (h : digitValue? c = some d) :
    c.toNat = d + 48 ∧ d < 10 ∨ c.toNat = d + 87 ∧ 10 ≤ d ∨ c.toNat = d + 55 ∧ 10 ≤ d := by
  have hle (x y : Char) : x ≤ y ↔ x.toNat ≤ y.toNat := UInt32.le_iff_toNat_le
  simp only [digitValue?, hle, Char.reduceToNat] at h
  split_ifs at h with hdecimal hlower hupper
  · obtain rfl := Option.some.inj h
    omega
  · obtain rfl := Option.some.inj h
    omega
  · obtain rfl := Option.some.inj h
    omega

theorem digitValue?_eq_some_iff (hd : d < 16) :
    digitValue? c = some d ↔ c = d.digitChar ∨ c = d.digitChar.toUpper := by
  constructor
  · intro h
    rw [← Char.ofNat_toNat c]
    rcases toNat_of_digitValue? h with ⟨hc, hlt⟩ | ⟨hc, hle⟩ | ⟨hc, hle⟩ <;> rw [hc] <;>
      interval_cases d <;> decide
  · rintro (rfl | rfl) <;> interval_cases d <;> decide

theorem isDigit_iff (hradix : radix ≤ 16) : IsDigit radix c d ↔ digit? radix c = some d := by
  rw [digit?_eq_some_iff, and_comm, IsDigit]
  exact and_congr_right fun hd => (digitValue?_eq_some_iff (hd.trans_le hradix)).symm

theorem valueFrom?_eq_some_iff (hradix : radix ≤ 16) :
    valueFrom? radix acc cs = some n ↔
      ∃ values, List.Forall₂ (IsDigit radix) cs values ∧
        n = acc * radix ^ values.length + Nat.ofDigits radix values.reverse := by
  induction cs generalizing acc with
  | nil => simp [valueFrom?, eq_comm]
  | cons c cs ih =>
    simp only [valueFrom?_cons, Option.bind_eq_some_iff, ih, List.forall₂_cons_left_iff,
      ← isDigit_iff hradix]
    constructor
    · rintro ⟨d, hd, values, hvalues, rfl⟩
      refine ⟨d :: values, ⟨d, values, hd, hvalues, rfl⟩, ?_⟩
      simp [Nat.ofDigits_append]
      ring
    · rintro ⟨_, ⟨d, values, hd, hvalues, rfl⟩, rfl⟩
      refine ⟨d, hd, values, hvalues, ?_⟩
      simp [Nat.ofDigits_append]
      ring

theorem value?_eq_some_iff (hradix : radix ≤ 16) :
    value? radix cs = some n ↔
      ∃ values, List.Forall₂ (IsDigit radix) cs values ∧ n = Nat.ofDigits radix values.reverse := by
  simp only [value?, valueFrom?_eq_some_iff hradix, Nat.zero_mul, Nat.zero_add]

/-- The reader accepts the numerals of the numbers that fit, and no other text. -/
theorem read_eq_ok_iff_isNumeral (hradix : 0 < radix) (hradix' : radix ≤ 16) {x : BitVec bits} :
    read radix bits cs = .ok x ↔ IsNumeral radix cs x.toNat := by
  have hsigned {ds : List Char} (hds : ds ≠ []) : unsigned ('+' :: ds) = ds := by
    obtain ⟨c, ds, rfl⟩ := List.exists_cons_of_ne_nil hds
    rfl
  rw [read_eq_ok_iff hradix]
  constructor
  · rintro ⟨hne, hvalue⟩
    obtain ⟨values, hvalues, hn⟩ := (value?_eq_some_iff hradix').1 hvalue
    unfold unsigned at hvalues
    split at hvalues
    case h_1 c cs =>
      exact ⟨['+'], c :: cs, values, .inr rfl, rfl, List.cons_ne_nil c cs, hvalues, hn⟩
    case h_2 => exact ⟨[], cs, values, .inl rfl, rfl, hne, hvalues, hn⟩
  · rintro ⟨sign, ds, values, hsign, rfl, hne, hvalues, hn⟩
    have hvalue := (value?_eq_some_iff hradix').2 ⟨values, hvalues, hn⟩
    rcases hsign with rfl | rfl
    · rw [List.nil_append, unsigned_of_value? hvalue]
      exact ⟨hne, hvalue⟩
    · rw [List.singleton_append, hsigned hne]
      exact ⟨List.cons_ne_nil _ _, hvalue⟩

theorem notMem_of_isNumeral (hradix : radix ≤ 16) (h : IsNumeral radix cs n)
    (hc : digitValue? c = none) (hsign : c ≠ '+') : c ∉ cs := by
  obtain ⟨sign, ds, values, hsigns, rfl, -, hvalues, hn⟩ := h
  have hdigits : c ∉ ds := notMem_of_value? ((value?_eq_some_iff hradix).2 ⟨values, hvalues, hn⟩) hc
  rcases hsigns with rfl | rfl <;> simp [hdigits, hsign]

/-! ## What is wrong with other texts -/

/-- What is wrong with a text that is no numeral of a number that fits. The reader stops at a
character that is no digit, or at the digit that makes the number too large, whichever comes first:
the digits in front of it stand for a number that still fits. -/
inductive Misread (radix bits : Nat) : List Char → NumeralError → Prop
  | empty : Misread radix bits [] .empty
  | invalidDigit {cs front back : List Char} {c : Char} {n : Nat}
      (hdigits : unsigned cs = front ++ c :: back) (hfront : value? radix front = some n)
      (hn : n < 2 ^ bits) (hc : digit? radix c = none) : Misread radix bits cs .invalidDigit
  | tooLarge {cs front back : List Char} {c : Char} {n m : Nat}
      (hdigits : unsigned cs = front ++ c :: back) (hfront : value? radix front = some n)
      (hn : n < 2 ^ bits) (hc : value? radix (front ++ [c]) = some m) (hm : 2 ^ bits ≤ m) :
      Misread radix bits cs .tooLarge

/-- The reader gets over digits that stand for a number below the bound. -/
theorem accumulate_append (hradix : 0 < radix) {front : List Char}
    (hfront : valueFrom? radix acc front = some n) (hn : n < bound) (back : List Char) :
    accumulate radix bound acc (front ++ back) = accumulate radix bound n back := by
  induction front generalizing acc with
  | nil =>
    obtain rfl := Option.some.inj hfront
    rfl
  | cons c front ih =>
    rw [valueFrom?_cons, Option.bind_eq_some_iff] at hfront
    obtain ⟨d, hd, hfront⟩ := hfront
    have hlt : acc * radix + d < bound := (le_of_valueFrom? hradix hfront).trans_lt hn
    rw [List.cons_append, accumulate, hd]
    exact (if_pos hlt).trans (ih hfront)

theorem accumulate_eq_error_iff (hradix : 0 < radix) (hacc : acc < bound) {e : NumeralError} :
    accumulate radix bound acc cs = .error e ↔
      ∃ front c back n, cs = front ++ c :: back ∧ valueFrom? radix acc front = some n ∧ n < bound ∧
        (digit? radix c = none ∧ e = .invalidDigit ∨
          ∃ d, digit? radix c = some d ∧ bound ≤ n * radix + d ∧ e = .tooLarge) := by
  constructor
  · intro h
    induction cs generalizing acc with
    | nil => cases h
    | cons c cs ih =>
      rw [accumulate] at h
      cases hd : digit? radix c with
      | none =>
        rw [hd] at h
        exact ⟨[], c, cs, acc, rfl, rfl, hacc, .inl ⟨hd, (Except.error.inj h).symm⟩⟩
      | some d =>
        simp only [hd] at h
        split at h
        case isTrue hlt =>
          obtain ⟨front, c', back, n, rfl, hfront, hstop⟩ := ih hlt h
          refine ⟨c :: front, c', back, n, rfl, ?_, hstop⟩
          rw [valueFrom?_cons, hd]
          exact hfront
        case isFalse hge =>
          exact ⟨[], c, cs, acc, rfl, rfl, hacc,
            .inr ⟨d, hd, Nat.not_lt.1 hge, (Except.error.inj h).symm⟩⟩
  · rintro ⟨front, c, back, n, rfl, hfront, hn, ⟨hc, rfl⟩ | ⟨d, hd, hge, rfl⟩⟩
    · rw [accumulate_append hradix hfront hn, accumulate, hc]
    · rw [accumulate_append hradix hfront hn, accumulate, hd]
      exact if_neg (Nat.not_lt.2 hge)

/-- The reader refuses a text for what is wrong with it first. -/
theorem read_eq_error_iff (hradix : 0 < radix) {e : NumeralError} :
    read radix bits cs = .error e ↔ Misread radix bits cs e := by
  have happend (front : List Char) (c : Char) : value? radix (front ++ [c]) =
      (value? radix front).bind fun n => (digit? radix c).map (n * radix + ·) := by
    rw [value?, valueFrom?_append]
    simp [value?, valueFrom?]
  have hread : read radix bits cs = .error e ↔
      cs = [] ∧ e = .empty ∨
        cs ≠ [] ∧ accumulate radix (2 ^ bits) 0 (unsigned cs) = .error e := by
    rw [read, Nat.one_shiftLeft]
    cases cs with
    | nil => simp [eq_comm]
    | cons c cs => cases accumulate radix (2 ^ bits) 0 (unsigned (c :: cs)) <;> simp [Except.map]
  rw [hread, accumulate_eq_error_iff hradix (Nat.two_pow_pos bits)]
  constructor
  · rintro (⟨rfl, rfl⟩ | ⟨-, front, c, back, n, hdigits, hfront, hn, ⟨hc, rfl⟩ | ⟨d, hd, hge, rfl⟩⟩)
    · exact .empty
    · exact .invalidDigit hdigits hfront hn hc
    · refine .tooLarge hdigits hfront hn (m := n * radix + d) ?_ hge
      rw [happend, value?, hfront, Option.bind_some, hd]
      rfl
  · intro h
    have hne {front back : List Char} {c : Char} (hdigits : unsigned cs = front ++ c :: back) :
        cs ≠ [] := by
      rintro rfl
      exact List.append_ne_nil_of_right_ne_nil front (List.cons_ne_nil c back) hdigits.symm
    cases h with
    | empty => exact .inl ⟨rfl, rfl⟩
    | invalidDigit hdigits hfront hn hc =>
      exact .inr ⟨hne hdigits, _, _, _, _, hdigits, hfront, hn, .inl ⟨hc, rfl⟩⟩
    | tooLarge hdigits hfront hn hc hm =>
      rw [happend, hfront, Option.bind_some, Option.map_eq_some_iff] at hc
      obtain ⟨d, hd, rfl⟩ := hc
      exact .inr ⟨hne hdigits, _, _, _, _, hdigits, hfront, hn, .inr ⟨d, hd, hm, rfl⟩⟩

end DivisionMicrocode.Text.Numeral
