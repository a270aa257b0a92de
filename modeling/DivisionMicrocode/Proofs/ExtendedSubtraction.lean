import DivisionMicrocode.Proofs.WordArithmetic
/-!
# Subtraction of long words

The arithmetic unit subtracts long words in two operations: it subtracts the lower words, and later
the upper words with the borrow in the extend flag. Other operations may come between the two. They
overwrite the result and the other flags, but only a subtraction writes the extend flag
(`extend_issueAll`), so the borrow is still there. What each operation hands out along the way are
the flags that the ones before it have left (`fst_issueAll`).
-/

namespace DivisionMicrocode.RegisterFile

/-- Issues operations one after another: the flags that each of them hands out, and the registers
after the last. -/
def issueAll (r : RegisterFile) : List (AluOp Word) → List Flags × RegisterFile
  | [] => ([], r)
  | op :: ops =>
    let (seen, after) := r.issue op
    let (later, last) := after.issueAll ops
    (seen :: later, last)

variable {op : AluOp Word} {ops : List (AluOp Word)}

/-! ## Operations one after another -/

theorem snd_issueAll_append (r : RegisterFile) (before after : List (AluOp Word)) :
    (r.issueAll (before ++ after)).2 = ((r.issueAll before).2.issueAll after).2 := by
  induction before generalizing r with
  | nil => rfl
  | cons op before ih => exact ih (r.afterAlu op)

/-- An operation hands out the flags that the operations before it have left. -/
theorem fst_issueAll (r : RegisterFile) (ops : List (AluOp Word)) :
    (r.issueAll ops).1 =
      (List.range ops.length).map fun i => (r.issueAll (ops.take i)).2.flags := by
  induction ops generalizing r with
  | nil => rfl
  | cons op ops ih =>
    rw [List.length_cons, List.range_succ_eq_map, List.map_cons, List.map_map]
    exact congrArg (r.flags :: ·) (ih (r.afterAlu op))

/-! ## The extend flag -/

theorem extend_afterAlu (r : RegisterFile) (hop : ∀ dst src, op ≠ .sub dst src) :
    (r.afterAlu op).flags.extend = r.flags.extend := by
  cases op with
  | sub dst src => exact absurd rfl (hop dst src)
  | and | subExtended | shiftLeft => rfl

/-- Any operations but subtractions keep the extend flag. -/
theorem extend_issueAll (r : RegisterFile) (hops : ∀ dst src, .sub dst src ∉ ops) :
    (r.issueAll ops).2.flags.extend = r.flags.extend := by
  induction ops generalizing r with
  | nil => rfl
  | cons op ops ih =>
    have hop (dst src : Word) : op ≠ .sub dst src := by
      rintro rfl
      exact hops dst src List.mem_cons_self
    have hlater (dst src : Word) : .sub dst src ∉ ops :=
      fun hmem => hops dst src (List.mem_cons_of_mem op hmem)
    calc
      _ = (r.afterAlu op).flags.extend := ih (r.afterAlu op) hlater
      _ = r.flags.extend := extend_afterAlu r hop

/-- After a subtraction it is the borrow, until the next one. -/
theorem extend_issueAll_sub (r : RegisterFile) (dst src : Word)
    (hops : ∀ dst src, .sub dst src ∉ ops) :
    (r.issueAll (.sub dst src :: ops)).2.flags.extend = decide (dst.toNat < src.toNat) :=
  calc
    _ = (r.afterAlu (.sub dst src)).flags.extend := extend_issueAll (r.afterAlu (.sub dst src)) hops
    _ = decide (dst.toNat < src.toNat) := Flags.extend_subtraction dst src

/-! ## Long words -/

/-- An extended subtraction of the upper words completes the subtraction of the lower words. -/
theorem alu_issueAll_subExtended (r : RegisterFile) (a b : Long)
    (hops : ∀ dst src, .sub dst src ∉ ops) :
    (r.issueAll (.sub a.low b.low :: ops ++ [.subExtended a.high b.high])).2.alu =
      (a - b).high := by
  let s := (r.issueAll (.sub a.low b.low :: ops)).2
  calc
    _ = (s.issueAll [.subExtended a.high b.high]).2.alu := by rw [snd_issueAll_append]
    _ = a.high - b.high - (BitVec.ofBool s.flags.extend).setWidth 16 := rfl
    _ = (a - b).high := by rw [extend_issueAll_sub r a.low b.low hops, Long.high_sub]

/-- A subtraction of the lower words and a later extended subtraction of the upper words give the
words of the difference, and every operation on the way hands out the flags as they stood before it.
The flags after a subtraction order its operands, as unsigned and as signed numbers, and tell
whether they are equal and whether their signed difference is too large for a word. -/
theorem issueAll_subtracts_long (r : RegisterFile) (a b : Long) (between : List (AluOp Word))
    (hbetween : ∀ dst src, .sub dst src ∉ between) :
    let lower := AluOp.sub a.low b.low
    let upper := AluOp.subExtended a.high b.high
    let ops := lower :: between ++ [upper]
    ((r.issueAll [lower]).2.alu = (a - b).low ∧ (r.issueAll ops).2.alu = (a - b).high) ∧
      (r.issueAll ops).1 =
        (List.range ops.length).map (fun i => (r.issueAll (ops.take i)).2.flags) ∧
      ∀ dst src,
        let f := (r.issue (.sub dst src)).2.flags
        f.carry = decide (dst.toNat < src.toNat) ∧ f.extend = decide (dst.toNat < src.toNat) ∧
          (f.overflow = true ↔
            ¬(-32768 ≤ dst.toInt - src.toInt ∧ dst.toInt - src.toInt ≤ 32767)) ∧
          f.zero = decide (dst = src) ∧
          (f.negative ≠ f.overflow ↔ dst.toInt < src.toInt) := by
  intro lower upper ops
  have hlow : (r.issueAll [lower]).2.alu = (a - b).low := (Long.low_sub a b).symm
  have hhigh : (r.issueAll ops).2.alu = (a - b).high := alu_issueAll_subExtended r a b hbetween
  refine ⟨⟨hlow, hhigh⟩, fst_issueAll r ops, ?_⟩
  intro dst src f
  have hoverflow : f.overflow = dst.ssubOverflow src := Flags.overflow_subtraction dst src
  have hsigned : (f.negative ^^ f.overflow) = dst.slt src :=
    Flags.negative_xor_overflow_subtraction dst src
  refine ⟨Flags.carry_subtraction dst src, Flags.extend_subtraction dst src, ?_,
    Flags.zero_subtraction_eq_decide dst src, ?_⟩
  · rw [hoverflow, BitVec.ssubOverflow, Bool.or_eq_true, decide_eq_true_iff, decide_eq_true_iff]
    omega
  · calc
      _ ↔ (f.negative ^^ f.overflow) = true := bne_iff_ne.symm
      _ ↔ dst.toInt < src.toInt := by rw [hsigned, BitVec.slt_iff_toInt_lt]

/-- With a borrow that has to outlast a logical operation, which clears the carry; and operands
whose signed difference is too small for a word. -/
theorem issueAll_subtracts_long_apart :
    let r := { ofOperands 0xFFFFFFFF 3 with flags := { overflow := true, zero := true } }
    let between := [.and 0x8421 0xFF00, .shiftLeft true, .subExtended 7 9, .and 0x1234 0]
    let ops := .sub 0 1 :: between ++ [.subExtended 1 0]
    let f := (r.issue (.sub 0x8000 1)).2.flags
    (∀ dst src, .sub dst src ∉ between) ∧
      ((r.issueAll [.sub 0 1]).2.alu = 0xFFFF ∧ (r.issueAll ops).2.alu = 0) ∧
      (r.issueAll ops).1 =
        [{ overflow := true, zero := true }, { carry := true, negative := true, extend := true },
          { negative := true, extend := true }, { negative := true, extend := true },
          { negative := true, extend := true }, { zero := true, extend := true }] ∧
      f.carry = false ∧ f.overflow = true ∧ f.zero = false ∧ f.negative ≠ f.overflow := by
  intro r between ops f
  have hbetween (dst src : Word) : .sub dst src ∉ between := by simp [between]
  obtain ⟨⟨hlow, hhigh⟩, hseen, hflags⟩ := issueAll_subtracts_long r 0x10000 1 between hbetween
  obtain ⟨hcarry, -, hoverflow, hzero, hsigned⟩ := hflags 0x8000 1
  refine ⟨hbetween, ⟨hlow, hhigh⟩, hseen, hcarry, hoverflow.2 (by decide), hzero, ?_⟩
  exact hsigned.2 (by decide)

end DivisionMicrocode.RegisterFile
