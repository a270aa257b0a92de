import DivisionMicrocode.RingBuffer
import Mathlib.Data.List.Infix
/-!
# Ring buffers as bounded stacks

A ring buffer and a stack without a bound are asked the same: to push, to pop and to clear. An
entry that has fallen out of the buffer never comes back, so after the first overflow the buffer
stays shorter than the stack. What it holds are the newest entries of the stack all the same
(`toList_after_isPrefix`), and how many they are depends on the kinds of the requests only
(`length_after`).
-/

namespace DivisionMicrocode

/-- What is asked of a stack. -/
inductive StackRequest (α : Type) where
  | push (a : α)
  | pop
  | clear

variable {α : Type} {capacity : Nat}

/-- What a stack without a bound hands out, and its entries after the request. The newest entry
comes first. -/
def serveStack (xs : List α) : StackRequest α → Option α × List α
  | .push a => (none, a :: xs)
  | .pop => (xs.head?, xs.tail)
  | .clear => (none, [])

/-- The entries of a stack without a bound after some requests. -/
def stackAfter (xs : List α) (qs : List (StackRequest α)) : List α :=
  qs.foldl (fun xs q => (serveStack xs q).2) xs

/-- The length of a bounded stack after a request. -/
def lengthAfter (capacity length : Nat) : StackRequest α → Nat
  | .push _ => min capacity (length + 1)
  | .pop => length - 1
  | .clear => 0

namespace RingBuffer

/-- What a ring buffer hands out, and the buffer after the request. -/
def serve (b : RingBuffer α capacity) : StackRequest α → Option α × RingBuffer α capacity
  | .push a => (none, b.push a)
  | .pop => (b.newest?, b.pop)
  | .clear => (none, empty)

/-- A ring buffer after some requests. -/
def after (b : RingBuffer α capacity) (qs : List (StackRequest α)) : RingBuffer α capacity :=
  qs.foldl (fun b q => (b.serve q).2) b

variable {b : RingBuffer α capacity} {xs : List α}

/-! ## One request -/

theorem eq_empty_of_isEmpty (h : b.isEmpty = true) : b = empty := by
  exact ext (List.isEmpty_iff.1 h)

theorem length_serve (b : RingBuffer α capacity) (q : StackRequest α) :
    (b.serve q).2.length = lengthAfter capacity b.length q := by
  cases q with
  | push a => exact List.length_take
  | pop => exact List.length_tail
  | clear => rfl

/-- Both gain and lose the same entry in front, and only the buffer loses entries at the back. -/
theorem toList_serve_isPrefix (h : b.toList <+: xs) (q : StackRequest α) :
    (b.serve q).2.toList <+: (serveStack xs q).2 := by
  cases q with
  | push a =>
    have hcons : a :: b.toList <+: a :: xs := List.cons_prefix_cons.2 ⟨rfl, h⟩
    exact (List.take_prefix capacity _).trans hcons
  | pop =>
    obtain ⟨older, rfl⟩ := h
    cases hb : b.toList with
    | nil => simp [serve, hb]
    | cons a as => simp [serve, serveStack, hb]
  | clear => exact List.prefix_rfl

/-- An entry that a buffer hands out is the one that the stack hands out. -/
theorem serve_pop_fst (h : b.toList <+: xs) (hb : b.isEmpty = false) :
    ∃ a, (b.serve .pop).1 = some a ∧ (serveStack xs .pop).1 = some a := by
  obtain ⟨older, rfl⟩ := h
  cases hlist : b.toList with
  | nil =>
    rw [isEmpty, hlist] at hb
    cases hb
  | cons a as => exact ⟨a, by simp [serve, newest?, hlist], by simp [serveStack]⟩

/-! ## Any requests -/

theorem toList_after_isPrefix (h : b.toList <+: xs) (qs : List (StackRequest α)) :
    (b.after qs).toList <+: stackAfter xs qs := by
  induction qs generalizing b xs with
  | nil => exact h
  | cons q qs ih => exact ih (toList_serve_isPrefix h q)

theorem length_after (b : RingBuffer α capacity) (qs : List (StackRequest α)) :
    (b.after qs).length = qs.foldl (lengthAfter capacity) b.length := by
  induction qs generalizing b with
  | nil => rfl
  | cons q qs ih =>
    rw [List.foldl_cons, ← length_serve]
    exact ih (b.serve q).2

theorem toList_after_pushes (b : RingBuffer α capacity) (as : List α) :
    (b.after (as.map .push)).toList = (as.reverse ++ b.toList).take capacity := by
  rw [← toList_foldl_push, after, List.foldl_map]
  rfl

/-- A ring buffer that starts empty holds the newest entries of a stack without a bound that is
asked the same, as many of them as the requests leave and never more than it has room for. While it
holds any, a pop hands out what the stack would. Once it holds none, it takes in what is pushed and
keeps the last entries that fit. -/
theorem after_refines_stack (capacity : Nat) (qs : List (StackRequest α)) :
    let b : RingBuffer α capacity := empty.after qs
    let xs := stackAfter [] qs
    b.toList <+: xs ∧
      b.length = qs.foldl (lengthAfter capacity) 0 ∧
      b.length ≤ capacity ∧
      (b.isEmpty = false →
        ∃ a, (b.serve .pop).1 = some a ∧ (serveStack xs .pop).1 = some a) ∧
      (b.isEmpty = true →
        (b.serve .pop).1 = none ∧
          ∀ as : List α,
            let c := b.after (as.map .push)
            c.toList.reverse <:+ as ∧ c.length = min capacity as.length) := by
  intro b xs
  have hnewest : b.toList <+: xs := toList_after_isPrefix List.prefix_rfl qs
  refine ⟨hnewest, length_after empty qs, b.length_le, serve_pop_fst hnewest, fun hb => ?_⟩
  rw [eq_empty_of_isEmpty hb]
  refine ⟨rfl, fun as => ?_⟩
  have hpushes := toList_after_pushes (empty : RingBuffer α capacity) as
  rw [toList_empty, List.append_nil] at hpushes
  constructor
  · rw [hpushes, ← List.reverse_prefix, List.reverse_reverse]
    exact List.take_prefix capacity as.reverse
  · rw [length, hpushes, List.length_take, List.length_reverse]

/-- A buffer for two entries that has overflowed runs empty before the stack does, and then takes in
three entries; a buffer without room keeps nothing. -/
theorem after_refines_stack_overflowed :
    let pushes : List (StackRequest Nat) := [.push 1, .push 2, .push 3]
    let full : RingBuffer Nat 2 := empty.after pushes
    let drained : RingBuffer Nat 2 := empty.after (pushes ++ [.pop, .pop])
    let roomless : RingBuffer Nat 0 := empty.after pushes
    (full.isEmpty = false ∧ full.toList <+: [3, 2, 1] ∧ full.length = 2 ∧
        ∃ a, (full.serve .pop).1 = some a ∧ some 3 = some a) ∧
      (drained.isEmpty = true ∧ stackAfter [] (pushes ++ [.pop, .pop]) = [1] ∧
        (drained.serve .pop).1 = none ∧ (drained.after ([5, 6, 7].map .push)).length = 2) ∧
      roomless.length = 0 := by
  intro pushes full drained roomless
  have hfull : full.isEmpty = false := rfl
  have hdrained : drained.isEmpty = true := rfl
  obtain ⟨hnewest, hlength, -, hpop, -⟩ := after_refines_stack 2 pushes
  obtain ⟨-, -, -, -, hempty⟩ := after_refines_stack 2 (pushes ++ [.pop, .pop])
  obtain ⟨-, hroomless, -⟩ := after_refines_stack 0 pushes
  obtain ⟨hnone, hpushes⟩ := hempty hdrained
  exact ⟨⟨hfull, hnewest, hlength, hpop hfull⟩, ⟨hdrained, rfl, hnone, (hpushes [5, 6, 7]).2⟩,
    hroomless⟩

end RingBuffer

end DivisionMicrocode
