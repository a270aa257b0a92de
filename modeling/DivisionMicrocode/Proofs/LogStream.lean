import DivisionMicrocode.Log.Backlog
import Mathlib.Data.List.DropRight
import Mathlib.Data.List.Induction
/-!
# What is printed of a stream of records

The backlog stands between the accepted records and what is printed of them. `pending` says by the
records alone which of them are held back; the accepted records of a stream fall into blocks, each
some trace records and the one that brings them to light, and what is printed of a block does not
depend on the blocks before it (`log_stream`).
-/

namespace DivisionMicrocode.Log

/-- The accepted trace records since the last accepted record of another level. -/
def pending (accepts : Record → Bool) (rs : List Record) : List Record :=
  (rs.filter accepts).rtakeWhile (·.level = .trace)

/-- Trace records, and the record of another level that follows them. -/
structure Block where
  context : List Record
  closing : Record
  trace_of_mem : ∀ r ∈ context, r.level = .trace
  closing_ne_trace : closing.level ≠ .trace

def Block.records (x : Block) : List Record := x.context ++ [x.closing]

/-- What stands on a printed line. -/
inductive Printed where
  | ellipsis
  | record (r : Record)
deriving DecidableEq

namespace Printed

def line (colored : Bool) : Printed → String
  | ellipsis => Style.ellipsis colored
  | record r => Style.recordLine colored r

def record? : Printed → Option Record
  | ellipsis => none
  | record r => some r

/-- What is printed when a record of another level follows trace records: an ellipsis if there are
20 of them or more, the last 20 of them in order of arrival, and the record. -/
def ofBlock (context : List Record) (closing : Record) : List Printed :=
  (if 20 ≤ context.length then [ellipsis] else []) ++ (context.rtake 20).map record ++
    [record closing]

theorem filterMap_record?_ofBlock (context : List Record) (closing : Record) :
    (ofBlock context closing).filterMap record? = context.rtake 20 ++ [closing] := by
  have hsome (rs : List Record) : (rs.map record).filterMap record? = rs := by
    rw [List.filterMap_map]
    exact List.filterMap_some
  rw [ofBlock, List.filterMap_append, List.filterMap_append, hsome]
  split <;> rfl

/-- Without an ellipsis nothing is missing. -/
theorem ofBlock_of_notMem {context : List Record} {closing : Record}
    (h : ellipsis ∉ ofBlock context closing) :
    ofBlock context closing = (context ++ [closing]).map record := by
  have hlt : ¬20 ≤ context.length := by
    intro hle
    rw [ofBlock, if_pos hle] at h
    exact h List.mem_cons_self
  have hall : context.rtake 20 = context := by
    rw [List.rtake, Nat.sub_eq_zero_of_le (Nat.le_of_not_le hlt), List.drop_zero]
  rw [ofBlock, if_neg hlt, hall, List.nil_append, List.map_append]
  rfl

end Printed

namespace Backlog

variable {accepts : Record → Bool} {colored : Bool} {b : Backlog} {r : Record} {rs : List Record}

/-! ## One record -/

theorem log_of_not_accepts (h : accepts r = false) : b.log accepts colored r = (b, []) := by
  rw [log, if_neg (Bool.eq_false_iff.1 h)]

theorem log_of_trace (h : accepts r = true) (hr : r.level = .trace) :
    b.log accepts colored r = (b.push (Style.recordLine colored r), []) := by
  rw [log, if_pos h, if_pos hr]

theorem log_of_ne_trace (h : accepts r = true) (hr : r.level ≠ .trace) :
    b.log accepts colored r = (.empty, b.context colored ++ [Style.recordLine colored r]) := by
  rw [log, if_pos h, if_neg hr]

theorem pending_of_not_accepts (h : accepts r = false) :
    pending accepts (rs ++ [r]) = pending accepts rs := by
  rw [pending, List.filter_append, List.filter_singleton, h]
  exact congrArg (List.rtakeWhile _) (List.append_nil _)

theorem pending_of_trace (h : accepts r = true) (hr : r.level = .trace) :
    pending accepts (rs ++ [r]) = pending accepts rs ++ [r] := by
  rw [pending, List.filter_append, List.filter_singleton, h]
  exact List.rtakeWhile_concat_pos _ _ r (decide_eq_true hr)

theorem pending_of_ne_trace (h : accepts r = true) (hr : r.level ≠ .trace) :
    pending accepts (rs ++ [r]) = [] := by
  rw [pending, List.filter_append, List.filter_singleton, h]
  exact List.rtakeWhile_concat_neg _ _ r (by rw [decide_eq_true_eq]; exact hr)

theorem trace_of_mem_pending {t : Record} (h : t ∈ pending accepts rs) : t.level = .trace := by
  simpa using List.mem_rtakeWhile_imp h

/-! ## All records -/

def after (accepts : Record → Bool) (colored : Bool) (rs : List Record) : Backlog :=
  rs.foldl (fun b r => (b.log accepts colored r).1) .empty

/-- The lines that records print one after another, from a backlog on. -/
def printed (accepts : Record → Bool) (colored : Bool) : Backlog → List Record → List String
  | _, [] => []
  | b, r :: rs =>
    (b.log accepts colored r).2 ++ printed accepts colored (b.log accepts colored r).1 rs

theorem after_concat (accepts : Record → Bool) (colored : Bool) (rs : List Record) (r : Record) :
    after accepts colored (rs ++ [r]) = ((after accepts colored rs).log accepts colored r).1 := by
  rw [after, List.foldl_append]
  rfl

theorem printed_append (accepts : Record → Bool) (colored : Bool) (b : Backlog)
    (rs more : List Record) :
    printed accepts colored b (rs ++ more) =
      printed accepts colored b rs ++
        printed accepts colored (rs.foldl (fun b r => (b.log accepts colored r).1) b) more := by
  induction rs generalizing b with
  | nil => rfl
  | cons r rs ih => rw [List.cons_append, printed, printed, ih, List.append_assoc, List.foldl_cons]

theorem printed_concat (accepts : Record → Bool) (colored : Bool) (rs : List Record) (r : Record) :
    printed accepts colored .empty (rs ++ [r]) =
      printed accepts colored .empty rs ++
        ((after accepts colored rs).log accepts colored r).2 := by
  rw [printed_append, printed, printed, List.append_nil]
  rfl

/-- The backlog is as if the pending records alone had come. -/
theorem after_eq (accepts : Record → Bool) (colored : Bool) (rs : List Record) :
    after accepts colored rs =
      ((pending accepts rs).map (Style.recordLine colored)).foldl .push .empty := by
  -- from the last record backwards, since it is the last that lets go of what is pending
  induction rs using List.reverseRecOn with
  | nil => rfl
  | append_singleton rs r ih =>
    rw [after_concat]
    cases h : accepts r with
    | false => rw [log_of_not_accepts h, pending_of_not_accepts h, ih]
    | true =>
      by_cases hr : r.level = .trace
      · rw [log_of_trace h hr, pending_of_trace h hr, List.map_append, List.foldl_append, ih]
        rfl
      · rw [log_of_ne_trace h hr, pending_of_ne_trace h hr]
        rfl

theorem toList_after (accepts : Record → Bool) (colored : Bool) (rs : List Record) :
    (after accepts colored rs).toList.reverse =
      ((pending accepts rs).rtake 20).map (Style.recordLine colored) := by
  rw [after_eq, RingBuffer.toList_foldl_push, RingBuffer.toList_empty, List.append_nil,
    ← List.rtake_eq_reverse_take_reverse, List.rtake, List.rtake, List.map_drop, List.length_map]
  rfl

theorem length_after (accepts : Record → Bool) (colored : Bool) (rs : List Record) :
    (after accepts colored rs).length = min 20 (pending accepts rs).length := by
  have h := congrArg List.length (toList_after accepts colored rs)
  rw [List.length_reverse, List.length_map, List.rtake, List.length_drop] at h
  rw [RingBuffer.length, h]
  omega

theorem log_after_of_ne_trace (h : accepts r = true) (hr : r.level ≠ .trace) :
    ((after accepts colored rs).log accepts colored r).2 =
      (Printed.ofBlock (pending accepts rs) r).map (Printed.line colored) := by
  have hfull : (after accepts colored rs).length = backlogCapacity ↔
      20 ≤ (pending accepts rs).length := by
    rw [length_after, backlogCapacity]
    omega
  rw [log_of_ne_trace h hr, context, toList_after, Printed.ofBlock, List.map_append,
    List.map_append, List.map_map]
  simp only [hfull]
  split <;> rfl

/-- The accepted records fall into blocks and the records that are still pending, and what is
printed is printed block by block. -/
theorem exists_blocks (accepts : Record → Bool) (colored : Bool) (rs : List Record) :
    ∃ blocks : List Block,
      rs.filter accepts = blocks.flatMap Block.records ++ pending accepts rs ∧
      printed accepts colored .empty rs =
        (blocks.flatMap fun x => Printed.ofBlock x.context x.closing).map
          (Printed.line colored) := by
  induction rs using List.reverseRecOn with
  | nil => exact ⟨[], rfl, rfl⟩
  | append_singleton rs r ih =>
    obtain ⟨blocks, hblocks, hprinted⟩ := ih
    rw [printed_concat, List.filter_append, List.filter_singleton, hblocks, hprinted]
    cases h : accepts r with
    | false =>
      refine ⟨blocks, ?_, ?_⟩
      · rw [pending_of_not_accepts h]
        exact List.append_nil _
      · rw [log_of_not_accepts h, List.append_nil]
    | true =>
      by_cases hr : r.level = .trace
      · refine ⟨blocks, ?_, ?_⟩
        · rw [pending_of_trace h hr, List.append_assoc]
          rfl
        · rw [log_of_trace h hr, List.append_nil]
      · -- the record closes a block, and nothing is pending behind it
        refine ⟨blocks ++ [⟨pending accepts rs, r, fun _ => trace_of_mem_pending, hr⟩], ?_, ?_⟩
        · rw [pending_of_ne_trace h hr, List.flatMap_append, List.flatMap_singleton,
            List.append_nil, List.append_assoc]
          rfl
        · rw [log_after_of_ne_trace h hr, List.flatMap_append, List.flatMap_singleton,
            List.map_append]

/-- The records on the printed lines of some blocks are among their records, in the same order. -/
theorem printed_sublist (blocks : List Block) :
    List.Sublist
      ((blocks.flatMap fun x => Printed.ofBlock x.context x.closing).filterMap Printed.record?)
      (blocks.flatMap Block.records) := by
  induction blocks with
  | nil => exact .slnil
  | cons x blocks ih =>
    rw [List.flatMap_cons, List.flatMap_cons, List.filterMap_append,
      Printed.filterMap_record?_ofBlock]
    have hcontext : (x.context.rtake 20).Sublist x.context := List.drop_sublist _ _
    exact (hcontext.append (.refl [x.closing])).append ih

/-- A record that is not accepted changes nothing, an accepted trace record prints nothing, and any
other accepted record prints an ellipsis if at least 20 trace records are pending, then the last 20
of them or all, in order of arrival, and then itself. At most 20 lines are held back. What a stream
of records prints is therefore a selection of the accepted records in order of arrival, with an
ellipsis in each block where trace records are missing. -/
theorem log_stream (accepts : Record → Bool) (colored : Bool) (rs : List Record) :
    let b := after accepts colored rs
    let held := pending accepts rs
    (∀ r, accepts r = false → b.log accepts colored r = (b, [])) ∧
    (∀ r, accepts r = true → r.level = .trace → (b.log accepts colored r).2 = []) ∧
    (∀ r, accepts r = true → r.level ≠ .trace →
      (b.log accepts colored r).2 =
        (if 20 ≤ held.length then [Style.ellipsis colored] else []) ++
          (held.rtake 20).map (Style.recordLine colored) ++ [Style.recordLine colored r]) ∧
    b.toList.reverse = (held.rtake 20).map (Style.recordLine colored) ∧ b.length ≤ 20 ∧
    ∃ blocks : List Block,
      let lines := blocks.flatMap fun x => Printed.ofBlock x.context x.closing
      rs.filter accepts = blocks.flatMap Block.records ++ held ∧
      printed accepts colored .empty rs = lines.map (Printed.line colored) ∧
      (lines.filterMap Printed.record?).Sublist (rs.filter accepts) ∧
      ∀ x ∈ blocks, Printed.ellipsis ∉ Printed.ofBlock x.context x.closing →
        Printed.ofBlock x.context x.closing = x.records.map Printed.record := by
  intro b held
  refine ⟨fun r => log_of_not_accepts, fun r h hr => ?_, fun r h hr => ?_,
    toList_after accepts colored rs, b.length_le, ?_⟩
  · rw [log_of_trace h hr]
  · rw [log_after_of_ne_trace h hr, Printed.ofBlock, List.map_append, List.map_append,
      List.map_map]
    split <;> rfl
  · obtain ⟨blocks, hblocks, hprinted⟩ := exists_blocks accepts colored rs
    refine ⟨blocks, hblocks, hprinted, ?_, fun x _ => Printed.ofBlock_of_notMem⟩
    rw [hblocks]
    exact (printed_sublist blocks).trans (List.sublist_append_left _ _)

/-- One trace record more than are held back, a record that is not accepted, and one that brings
the trace records to light. -/
theorem log_stream_full_backlog :
    let accepts (r : Record) : Bool := r.target != "elsewhere"
    let trace (n : Nat) : Record := ⟨.trace, "divider_state", String.ofList (Nat.toDigits 10 n)⟩
    let silent : Record := ⟨.error, "elsewhere", "unheard"⟩
    let closing : Record := ⟨.warn, "divider", "done"⟩
    let b := after accepts false ((List.range 21).map trace ++ [silent])
    accepts silent = false ∧ b.log accepts false silent = (b, []) ∧
      accepts (trace 21) = true ∧ (b.log accepts false (trace 21)).2 = [] ∧
      accepts closing = true ∧ closing.level ≠ .trace ∧
      (b.log accepts false closing).2 =
        ["...", "1", "2", "3", "4", "5", "6", "7", "8", "9", "10", "11", "12", "13", "14", "15",
          "16", "17", "18", "19", "20", "W done"] := by
  intro accepts trace silent closing b
  obtain ⟨hsilent, htrace, hclosing, -⟩ :=
    log_stream accepts false ((List.range 21).map trace ++ [silent])
  refine ⟨by decide, hsilent silent (by decide), by decide, htrace _ (by decide) rfl, by decide,
    by decide, ?_⟩
  exact (hclosing closing (by decide) (by decide)).trans (by decide +kernel)

end Backlog

end DivisionMicrocode.Log
