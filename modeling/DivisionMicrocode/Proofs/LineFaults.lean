import DivisionMicrocode.Proofs.LineGrammar
/-!
# The faults of trace lines

A text that is no trace line is refused for its first fault. `Place.all` lists the places that can be
at fault in the order in which they are read. For each place, `WellFormed` says when the reader gets
past it and `Faulty` what it is told there, word for word, and both look at one token only. So an
error belongs to the first place that is not well formed, and whatever stands behind that token
changes nothing (`ofLine_rejects`).
-/

namespace DivisionMicrocode

namespace Snapshot

open Text

/-! ## Places -/

/-- The number of the token that a tag stands in. -/
def Tag.index : Tag → Nat
  | au => 1
  | alu => 2
  | alue => 3
  | alub => 4
  | rx => 5
  | ry => 6
  | cyc => 8

namespace NumeralField

/-- The tag in front of a numeral. -/
def tag : NumeralField → Tag
  | counter => .au
  | alu => .alu
  | aluExt => .alue
  | aluBuf => .alub
  | dividendHi | dividendLo => .rx
  | divisor => .ry
  | cycles => .cyc

def radix : NumeralField → Nat
  | counter | dividendHi | dividendLo | divisor => 16
  | alu | aluExt | aluBuf => 2
  | cycles => 10

def bits : NumeralField → Nat
  | counter => 32
  | alu | aluExt | aluBuf | dividendHi | dividendLo | divisor => 16
  | cycles => 64

/-- The context in which an error in a numeral is reported. -/
def context : NumeralField → String
  | counter => "au"
  | alu => "alu"
  | aluExt => "alue"
  | aluBuf => "alub"
  | dividendHi => "rx high"
  | dividendLo => "rx low"
  | divisor => "ry"
  | cycles => "cycles"

theorem name_eq_context (field : NumeralField) : field.name = field.context := by
  cases field <;> rfl

/-- A token holds a text at the place of a numeral. The two words of the dividend stand before and
behind the first colon after their tag. -/
def Holds (token : Option (List Char)) (value : List Char) : NumeralField → Prop
  | dividendHi => ∃ lo, token = some (Tag.rx.text.toList ++ (value ++ ':' :: lo)) ∧ ':' ∉ value
  | dividendLo => ∃ hi, token = some (Tag.rx.text.toList ++ (hi ++ ':' :: value)) ∧ ':' ∉ hi
  | field => token = some (field.tag.text.toList ++ value)

end NumeralField

/-- A place of a trace line that can be at fault. -/
inductive Place where
  | microword
  | tag (t : Tag)
  /-- The mark between the two words of the dividend. -/
  | colon
  | numeral (field : NumeralField)
  | flags

namespace Place

/-- The places in the order in which they are read. -/
def all : List Place :=
  [microword, tag .au, numeral .counter, tag .alu, numeral .alu, tag .alue, numeral .aluExt,
    tag .alub, numeral .aluBuf, tag .rx, colon, numeral .dividendHi, numeral .dividendLo, tag .ry,
    numeral .divisor, flags, tag .cyc, numeral .cycles]

/-- The number of the token that a place is in. -/
def index : Place → Nat
  | microword => 0
  | tag t => t.index
  | colon => Tag.rx.index
  | numeral field => field.tag.index
  | flags => 7

/-- There is a token, and it has at the place what a trace line has there. -/
def WellFormed (token : Option (List Char)) : Place → Prop
  | microword => ∃ w : Microword, token = some w.label.toList
  | tag t => ∃ value, token = some (t.text.toList ++ value)
  | colon => ∃ hi lo, token = some (Tag.rx.text.toList ++ (hi ++ ':' :: lo))
  | numeral field =>
    ∃ value n, field.Holds token value ∧ Numeral.IsNumeral field.radix value n ∧ n < 2 ^ field.bits
  | flags => ∃ cs, token = some cs ∧ cs.length = 5

/-- What is reported of a place, and of which tokens it is reported: the error, and its chain of
contexts with the cause at the end. -/
inductive Faulty : Place → Option (List Char) → ParseError → List String → Prop
  | noMicroword : Faulty microword none .noMicroword ["microword"]
  | unknownMicroword {cs : List Char} (h : ∀ w : Microword, cs ≠ w.label.toList) :
      Faulty microword (some cs) (.unknownMicroword (String.ofList cs))
        ["Unknown microword label: " ++ String.ofList cs]
  | noField (t : Tag) : Faulty (tag t) none (.noField t) ["Missing " ++ t.text ++ " field."]
  | otherField {t : Tag} {cs : List Char} (h : ¬t.text.toList <+: cs) :
      Faulty (tag t) (some cs) (.otherField t (String.ofList cs))
        ["Expected " ++ t.text ++ " in " ++ String.ofList cs]
  | noColon {value : List Char} (h : ':' ∉ value) :
      Faulty colon (some (Tag.rx.text.toList ++ value)) .noColon ["Invalid RX field."]
  | emptyNumeral {field : NumeralField} {token : Option (List Char)} {value : List Char}
      (hvalue : field.Holds token value)
      (h : Numeral.Misread field.radix field.bits value .empty) :
      Faulty (numeral field) token (.badNumeral field .empty)
        [field.context, "cannot parse integer from empty string"]
  | invalidNumeral {field : NumeralField} {token : Option (List Char)} {value : List Char}
      (hvalue : field.Holds token value)
      (h : Numeral.Misread field.radix field.bits value .invalidDigit) :
      Faulty (numeral field) token (.badNumeral field .invalidDigit)
        [field.context, "invalid digit found in string"]
  | largeNumeral {field : NumeralField} {token : Option (List Char)} {value : List Char}
      (hvalue : field.Holds token value)
      (h : Numeral.Misread field.radix field.bits value .tooLarge) :
      Faulty (numeral field) token (.badNumeral field .tooLarge)
        [field.context, "number too large to fit in target type"]
  | noFlags : Faulty flags none .noFlags ["flags"]
  | badFlags {cs : List Char} (h : cs.length ≠ 5) :
      Faulty flags (some cs) .badFlags ["Flags string must be 5 characters long"]

end Place

variable {α β : Type} {ts : List (List Char)} {token : Option (List Char)} {e : ParseError}
  {chain : List String} {p : Place} {ps : List Place}

namespace Place

/-- The error that is reported has the chain that is reported. -/
theorem Faulty.chain_eq (h : p.Faulty token e chain) : e.chain = chain := by
  cases h with
  | emptyNumeral | invalidNumeral | largeNumeral =>
    rw [ParseError.chain, NumeralField.name_eq_context]
    rfl
  | noMicroword | unknownMicroword | noField | otherField | noColon | noFlags | badFlags => rfl

theorem faulty_numeral_iff {field : NumeralField} :
    (∃ chain, Faulty (numeral field) token e chain) ↔
      ∃ value e', field.Holds token value ∧
        Numeral.Misread field.radix field.bits value e' ∧ e = .badNumeral field e' := by
  constructor
  · rintro ⟨_, h⟩
    cases h with
    | emptyNumeral hvalue h | invalidNumeral hvalue h | largeNumeral hvalue h =>
      exact ⟨_, _, hvalue, h, rfl⟩
  · rintro ⟨value, e', hvalue, h, rfl⟩
    cases e' with
    | empty => exact ⟨_, .emptyNumeral hvalue h⟩
    | invalidDigit => exact ⟨_, .invalidNumeral hvalue h⟩
    | tooLarge => exact ⟨_, .largeNumeral hvalue h⟩

end Place

/-! ## The first fault -/

/-- One of the places is at fault, and those before it are well formed. -/
def FaultIn (ts : List (List Char)) (e : ParseError) : List Place → Prop
  | [] => False
  | p :: ps =>
    (∃ chain, p.Faulty ts[p.index]? e chain) ∨ p.WellFormed ts[p.index]? ∧ FaultIn ts e ps

theorem faultIn_iff :
    FaultIn ts e ps ↔
      ∃ before p after, ps = before ++ p :: after ∧
        (∀ q ∈ before, q.WellFormed ts[q.index]?) ∧
        ∃ chain, p.Faulty ts[p.index]? e chain := by
  induction ps with
  | nil =>
    refine iff_of_false id ?_
    rintro ⟨before, p, after, h, -⟩
    exact List.append_ne_nil_of_right_ne_nil before (List.cons_ne_nil p after) h.symm
  | cons p ps ih =>
    rw [FaultIn, ih]
    constructor
    · rintro (hfault | ⟨hp, before, q, after, rfl, hbefore, hfault⟩)
      · exact ⟨[], p, ps, rfl, nofun, hfault⟩
      · exact ⟨p :: before, q, after, rfl, List.forall_mem_cons.2 ⟨hp, hbefore⟩, hfault⟩
    · rintro ⟨before, q, after, h, hbefore, hfault⟩
      cases before with
      | nil =>
        obtain ⟨rfl, rfl⟩ := List.cons.inj h
        exact .inl hfault
      | cons b before =>
        obtain ⟨rfl, rfl⟩ := List.cons.inj h
        obtain ⟨hp, hbefore⟩ := List.forall_mem_cons.1 hbefore
        exact .inr ⟨hp, before, q, after, rfl, hbefore, hfault⟩

/-! ## What each reader refuses -/

/-- A reader gets past a place where it is well formed, and otherwise tells its fault. -/
structure Checks (p : Place) (token : Option (List Char)) (x : Except ParseError α) : Prop where
  wellFormed : (∃ a, x = .ok a) ↔ p.WellFormed token
  faulty : ∀ e, x = .error e ↔ ∃ chain, p.Faulty token e chain

/-- A place that has been checked comes before those that the rest of the reader checks. -/
theorem Checks.bind_eq_error_iff {x : Except ParseError α} (h : Checks p ts[p.index]? x)
    {f : α → Except ParseError β}
    (hrest : ∀ a, x = .ok a → (f a = .error e ↔ FaultIn ts e ps)) :
    (x >>= f) = .error e ↔ FaultIn ts e (p :: ps) := by
  rw [FaultIn, ← h.faulty, ← h.wellFormed]
  cases x with
  | error e' => simp [bind, Except.bind]
  | ok a => simpa [bind, Except.bind] using hrest a rfl

theorem Checks.not_wellFormed {x : Except ParseError α} (h : Checks p token x)
    (hfault : p.Faulty token e chain) : ¬p.WellFormed token := by
  have herror := (h.faulty e).2 ⟨chain, hfault⟩
  rw [← h.wellFormed, herror]
  exact fun ⟨_, ha⟩ => nomatch ha

theorem checks_readMicroword (token : Option (List Char)) :
    Checks .microword token (readMicroword token) where
  wellFormed := exists_congr fun _ => readMicroword_eq_ok_iff
  faulty e := by
    constructor
    · intro h
      cases token with
      | none =>
        obtain rfl := Except.error.inj h
        exact ⟨_, .noMicroword⟩
      | some cs =>
        rw [readMicroword] at h
        split at h
        case h_1 hlabel =>
          obtain rfl := Except.error.inj h
          refine ⟨_, .unknownMicroword fun w hw => ?_⟩
          rw [hw, String.ofList_toList, Microword.ofLabel?_label] at hlabel
          cases hlabel
        case h_2 => cases h
    · rintro ⟨_, _ | @⟨cs, h⟩⟩
      · rfl
      · cases hlabel : Microword.ofLabel? (String.ofList cs) with
        | none => rw [readMicroword, hlabel]
        | some w =>
          have hcs := Microword.label_of_ofLabel? hlabel
          exact absurd (by rw [hcs, String.toList_ofList]) (h w)

theorem checks_readField (t : Tag) (token : Option (List Char)) :
    Checks (.tag t) token (readField t token) where
  wellFormed := exists_congr fun _ => readField_eq_ok_iff
  faulty e := by
    have hother {cs : List Char} : t.text.toList.isPrefixOf? cs = none ↔
        ¬t.text.toList <+: cs := by
      rw [Option.eq_none_iff_forall_ne_some]
      simp only [ne_eq, List.isPrefixOf?_eq_some_iff_append_eq, ← not_exists]
      rfl
    constructor
    · intro h
      cases token with
      | none =>
        obtain rfl := Except.error.inj h
        exact ⟨_, .noField t⟩
      | some cs =>
        rw [readField] at h
        split at h
        case h_1 hnone =>
          obtain rfl := Except.error.inj h
          exact ⟨_, .otherField (hother.1 hnone)⟩
        case h_2 => cases h
    · rintro ⟨_, _ | _ | _ | h⟩
      · rfl
      · rw [readField, hother.2 h]

theorem splitAtColon_eq_error_iff {cs : List Char} :
    splitAtColon cs = .error e ↔ ':' ∉ cs ∧ e = .noColon := by
  constructor
  · intro h
    rw [splitAtColon] at h
    split at h
    case h_1 hnil =>
      refine ⟨fun hmem => ?_, (Except.error.inj h).symm⟩
      simpa using List.dropWhile_eq_nil_iff.1 hnil ':' hmem
    case h_2 => cases h
  · rintro ⟨hcs, rfl⟩
    have hnil : cs.dropWhile (· != ':') = [] :=
      List.dropWhile_eq_nil_iff.2 fun c hc => bne_iff_ne.2 fun heq => hcs (heq ▸ hc)
    rw [splitAtColon, hnil]

theorem checks_splitAtColon {value : List Char} (h : readField .rx token = .ok value) :
    Checks .colon token (splitAtColon value) where
  wellFormed := by
    obtain rfl := readField_eq_ok_iff.1 h
    simp only [Prod.exists, splitAtColon_eq_ok_iff, Place.WellFormed, Option.some_inj,
      List.append_cancel_left_eq]
    constructor
    · rintro ⟨hi, lo, rfl, -⟩
      exact ⟨hi, lo, rfl⟩
    · rintro ⟨hi, lo, rfl⟩
      have hmem : ':' ∈ hi ++ ':' :: lo := List.mem_append_right hi List.mem_cons_self
      exact List.eq_append_cons_of_mem hmem
  faulty e := by
    obtain rfl := readField_eq_ok_iff.1 h
    rw [splitAtColon_eq_error_iff]
    constructor
    · rintro ⟨hvalue, rfl⟩
      exact ⟨_, .noColon hvalue⟩
    · generalize htoken : some (Tag.rx.text.toList ++ value) = token
      rintro ⟨_, _ | _ | _ | _ | @⟨value', h'⟩⟩
      rw [Option.some_inj, List.append_cancel_left_eq] at htoken
      exact ⟨htoken ▸ h', rfl⟩

/-- The first colon tells the two words apart. -/
theorem words_unique {hi lo hi' lo' : List Char}
    (h : token = some (Tag.rx.text.toList ++ (hi ++ ':' :: lo))) (hhi : ':' ∉ hi)
    (h' : token = some (Tag.rx.text.toList ++ (hi' ++ ':' :: lo'))) (hhi' : ':' ∉ hi') :
    hi = hi' ∧ lo = lo' := by
  have hvalue : hi ++ ':' :: lo = hi' ++ ':' :: lo' :=
    List.append_cancel_left (Option.some.inj (h.symm.trans h'))
  have hsplit := splitAtColon_append hhi lo
  rw [hvalue, splitAtColon_append hhi' lo'] at hsplit
  exact Prod.mk.inj (Except.ok.inj hsplit.symm)

theorem NumeralField.Holds.unique {field : NumeralField} {v w : List Char}
    (hv : field.Holds token v) (hw : field.Holds token w) : v = w := by
  cases field
  case dividendHi =>
    obtain ⟨_, htoken, hcolon⟩ := hv
    obtain ⟨_, htoken', hcolon'⟩ := hw
    exact (words_unique htoken hcolon htoken' hcolon').1
  case dividendLo =>
    obtain ⟨_, htoken, hcolon⟩ := hv
    obtain ⟨_, htoken', hcolon'⟩ := hw
    exact (words_unique htoken hcolon htoken' hcolon').2
  all_goals exact List.append_cancel_left (Option.some.inj (hv.symm.trans hw))

theorem checks_readNumeral (field : NumeralField) {value : List Char}
    (h : field.Holds token value) :
    Checks (.numeral field) token (readNumeral field field.radix field.bits value) where
  wellFormed := by
    have hradix : 0 < field.radix ∧ field.radix ≤ 16 := by cases field <;> decide
    simp only [readNumeral_eq_ok_iff hradix.1 hradix.2, Place.WellFormed]
    constructor
    · rintro ⟨x, hx⟩
      exact ⟨value, x.toNat, h, hx, x.isLt⟩
    · rintro ⟨_, n, hvalue, hn, hlt⟩
      obtain rfl := h.unique hvalue
      refine ⟨BitVec.ofNat field.bits n, ?_⟩
      rw [BitVec.toNat_ofNat, Nat.mod_eq_of_lt hlt]
      exact hn
  faulty e := by
    have hradix : 0 < field.radix := by cases field <;> decide
    have hread : readNumeral field field.radix field.bits value = .error e ↔
        ∃ e', Numeral.Misread field.radix field.bits value e' ∧ e = .badNumeral field e' := by
      simp only [← Numeral.read_eq_error_iff hradix, readNumeral]
      cases Numeral.read field.radix field.bits value <;> simp [Except.mapError, eq_comm]
    rw [hread, Place.faulty_numeral_iff]
    constructor
    · rintro ⟨e', he', rfl⟩
      exact ⟨value, e', h, he', rfl⟩
    · rintro ⟨_, e', hvalue, he', rfl⟩
      obtain rfl := h.unique hvalue
      exact ⟨e', he', rfl⟩

theorem checks_readFlags (token : Option (List Char)) : Checks .flags token (readFlags token) where
  wellFormed := by
    cases token with
    | none => simp [readFlags, Place.WellFormed]
    | some cs =>
      have hlength := Flags.ofList?_eq_none_iff cs
      rw [readFlags, Place.WellFormed]
      cases hflags : Flags.ofList? cs <;> simp_all
  faulty e := by
    constructor
    · intro h
      cases token with
      | none =>
        obtain rfl := Except.error.inj h
        exact ⟨_, .noFlags⟩
      | some cs =>
        rw [readFlags] at h
        split at h
        case h_1 hnone =>
          obtain rfl := Except.error.inj h
          exact ⟨_, .badFlags ((Flags.ofList?_eq_none_iff cs).1 hnone)⟩
        case h_2 => cases h
    · rintro ⟨_, _ | _ | _ | _ | _ | _ | _ | _ | _ | @⟨cs, h⟩⟩
      · rfl
      · rw [readFlags, (Flags.ofList?_eq_none_iff cs).2 h]

/-- What is at fault is not well formed, so the first fault is at the first place that is not. -/
theorem Place.Faulty.not_wellFormed (h : p.Faulty token e chain) : ¬p.WellFormed token := by
  cases p with
  | microword => exact (checks_readMicroword token).not_wellFormed h
  | tag t => exact (checks_readField t token).not_wellFormed h
  | colon =>
    cases h with
    | noColon hvalue =>
      exact (checks_splitAtColon (readField_tagged .rx _)).not_wellFormed (.noColon hvalue)
  | numeral field =>
    obtain ⟨_, _, hvalue, -, -⟩ := Place.faulty_numeral_iff.1 ⟨chain, h⟩
    exact (checks_readNumeral field hvalue).not_wellFormed h
  | flags => exact (checks_readFlags token).not_wellFormed h

/-! ## Lines -/

/-- The first place that is not well formed, and what is reported of it. -/
def FirstFault (ts : List (List Char)) (p : Place) (e : ParseError) (chain : List String) : Prop :=
  ∃ before after, Place.all = before ++ p :: after ∧
    (∀ q ∈ before, q.WellFormed ts[q.index]?) ∧ ¬p.WellFormed ts[p.index]? ∧
    p.Faulty ts[p.index]? e chain

/-- The reader checks the places in their order. -/
theorem ofTokens_eq_error_iff_faultIn : ofTokens ts = .error e ↔ FaultIn ts e Place.all := by
  have hfield {t : Tag} {k : Nat} {value : List Char} (h : readField t ts[k]? = .ok value) :
      ts[k]? = some (t.text.toList ++ value) := readField_eq_ok_iff.1 h
  refine (checks_readMicroword ts[0]?).bind_eq_error_iff fun _ _ => ?_
  refine (checks_readField .au ts[1]?).bind_eq_error_iff fun _ h => ?_
  refine (checks_readNumeral .counter (hfield h)).bind_eq_error_iff fun _ _ => ?_
  refine (checks_readField .alu ts[2]?).bind_eq_error_iff fun _ h => ?_
  refine (checks_readNumeral .alu (hfield h)).bind_eq_error_iff fun _ _ => ?_
  refine (checks_readField .alue ts[3]?).bind_eq_error_iff fun _ h => ?_
  refine (checks_readNumeral .aluExt (hfield h)).bind_eq_error_iff fun _ _ => ?_
  refine (checks_readField .alub ts[4]?).bind_eq_error_iff fun _ h => ?_
  refine (checks_readNumeral .aluBuf (hfield h)).bind_eq_error_iff fun _ _ => ?_
  refine (checks_readField .rx ts[5]?).bind_eq_error_iff fun value h => ?_
  refine (checks_splitAtColon h).bind_eq_error_iff fun ⟨hi, lo⟩ hsplit => ?_
  obtain ⟨rfl, hcolon⟩ := splitAtColon_eq_ok_iff.1 hsplit
  refine (checks_readNumeral .dividendHi ⟨lo, hfield h, hcolon⟩).bind_eq_error_iff
    fun _ _ => ?_
  refine (checks_readNumeral .dividendLo ⟨hi, hfield h, hcolon⟩).bind_eq_error_iff
    fun _ _ => ?_
  refine (checks_readField .ry ts[6]?).bind_eq_error_iff fun _ h => ?_
  refine (checks_readNumeral .divisor (hfield h)).bind_eq_error_iff fun _ _ => ?_
  refine (checks_readFlags ts[7]?).bind_eq_error_iff fun _ _ => ?_
  refine (checks_readField .cyc ts[8]?).bind_eq_error_iff fun _ h => ?_
  refine (checks_readNumeral .cycles (hfield h)).bind_eq_error_iff fun _ _ => ?_
  exact iff_of_false nofun id

theorem FirstFault.chain_eq (h : FirstFault ts p e chain) : e.chain = chain := by
  obtain ⟨_, _, -, -, -, hfault⟩ := h
  exact hfault.chain_eq

theorem ofTokens_eq_error_iff : ofTokens ts = .error e ↔ ∃ p, FirstFault ts p e e.chain := by
  rw [ofTokens_eq_error_iff_faultIn, faultIn_iff]
  constructor
  · rintro ⟨before, p, after, hall, hbefore, chain, hfault⟩
    obtain rfl := hfault.chain_eq
    exact ⟨p, before, after, hall, hbefore, hfault.not_wellFormed, hfault⟩
  · rintro ⟨p, before, after, hall, hbefore, -, hfault⟩
    exact ⟨before, p, after, hall, hbefore, e.chain, hfault⟩

/-- The tokens are looked at in their order. -/
theorem Place.pairwise_index_all : Place.all.Pairwise (·.index ≤ ·.index) := by decide

/-- A fault is still the first one if only what stands behind its token is changed. -/
theorem FirstFault.congr {ts' : List (List Char)} (h : FirstFault ts p e chain)
    (hts : ∀ k ≤ p.index, ts'[k]? = ts[k]?) : FirstFault ts' p e chain := by
  obtain ⟨before, after, hall, hbefore, hfault⟩ := h
  have hle : ∀ q ∈ before, q.index ≤ p.index := by
    have hpairwise := Place.pairwise_index_all
    rw [hall, List.pairwise_append] at hpairwise
    exact fun q hq => hpairwise.2.2 q hq p List.mem_cons_self
  refine ⟨before, after, hall, fun q hq => ?_, ?_⟩
  · rw [hts q.index (hle q hq)]
    exact hbefore q hq
  · rw [hts p.index (Nat.le_refl p.index)]
    exact hfault

/-- A text is refused exactly for its first fault, with the chain of contexts that belongs to this
place and fault. Every text whose tokens agree with it up to the token at fault, or end there as its
tokens do, is refused with the same error and the same chain. -/
theorem ofLine_rejects :
    (∀ (text : String) (e : ParseError), ofLine text = .error e ↔
      ∃ ts p, Spaced ts text.toList ∧ FirstFault ts p e e.chain) ∧
    ∀ (ts : List (List Char)) (p : Place) (e : ParseError) (chain : List String),
      FirstFault ts p e chain →
        ∀ (text' : String) (ts' : List (List Char)), Spaced ts' text'.toList →
          (∀ k ≤ p.index, ts'[k]? = ts[k]?) →
            ofLine text' = .error e ∧ e.chain = chain ∧ e.message = ": ".intercalate chain := by
  refine ⟨fun text e => ?_, fun ts p e chain h text' ts' hts' hagree => ?_⟩
  · simp only [← tokens_eq_iff, exists_and_left, exists_eq_left', ← ofTokens_eq_error_iff]
    rfl
  · obtain rfl := h.chain_eq
    refine ⟨?_, rfl, rfl⟩
    rw [ofLine, hts'.tokens_eq, ofTokens_eq_error_iff]
    exact ⟨p, h.congr hagree⟩

/-- A counter that is too large before its last character is found to be no digit, in a line whose
next field is at fault too; and the line that ends with the counter. -/
theorem ofLine_rejects_counter :
    let ts := ["DVUM5", "AU:100000000x", "ALU:2"].map String.toList
    let e : ParseError := .badNumeral .counter .tooLarge
    let chain := ["au", "number too large to fit in target type"]
    FirstFault ts (.numeral .counter) e chain ∧
      ofLine "DVUM5 AU:100000000x ALU:2" = .error e ∧ ofLine " DVUM5\tAU:100000000x\n" = .error e ∧
      e.chain = chain ∧ e.message = "au: number too large to fit in target type" := by
  intro ts e chain
  have htoken : ts[1]? = some (Tag.au.text.toList ++ "100000000x".toList) := by decide +kernel
  have hvalue : NumeralField.counter.Holds ts[1]? "100000000x".toList := htoken
  have hdigits : Numeral.unsigned "100000000x".toList = "10000000".toList ++ '0' :: ['x'] := rfl
  have hfits : Numeral.value? 16 "10000000".toList = some 0x10000000 := by decide +kernel
  have hlarge : Numeral.value? 16 ("10000000".toList ++ ['0']) = some 0x100000000 := by
    decide +kernel
  have hfault : Place.Faulty (.numeral .counter) ts[1]? e chain :=
    .largeNumeral hvalue (.tooLarge hdigits hfits (by decide) hlarge (by decide))
  have hbefore : ∀ q ∈ [Place.microword, .tag .au], q.WellFormed ts[q.index]? :=
    List.forall_mem_cons.2 ⟨⟨.unsigned .dvum5, by decide +kernel⟩,
      List.forall_mem_cons.2 ⟨⟨_, htoken⟩, List.forall_mem_nil _⟩⟩
  have hfirst : FirstFault ts (.numeral .counter) e chain :=
    ⟨[.microword, .tag .au], _, rfl, hbefore, hfault.not_wellFormed, hfault⟩
  obtain ⟨hshort, hchain, hmessage⟩ :=
    ofLine_rejects.2 ts _ e chain hfirst " DVUM5\tAU:100000000x\n" (ts.take 2)
      (tokens_eq_iff.1 (by decide +kernel)) (by decide +kernel)
  have hlong : ofLine "DVUM5 AU:100000000x ALU:2" = .error e :=
    (ofLine_rejects.1 _ e).2 ⟨ts, _, tokens_eq_iff.1 (by decide +kernel), hfirst⟩
  exact ⟨hfirst, hlong, hshort, hchain, hmessage.trans (by decide +kernel)⟩

end Snapshot

end DivisionMicrocode
