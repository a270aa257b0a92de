/-!
# Ring buffers

A ring buffer keeps the most recent entries, up to its capacity, the newest first. What is pushed
comes in at the front, and an entry that no longer fits falls out at the back.
-/

namespace DivisionMicrocode

/-- A buffer of at most `capacity` entries. -/
structure RingBuffer (α : Type) (capacity : Nat) where
  /-- The entries, newest first. -/
  toList : List α
  length_le : toList.length ≤ capacity

namespace RingBuffer

variable {α : Type} {capacity : Nat}

def empty : RingBuffer α capacity := ⟨[], Nat.zero_le _⟩

instance : Inhabited (RingBuffer α capacity) := ⟨empty⟩

/-- Puts a new entry in front. -/
def push (b : RingBuffer α capacity) (a : α) : RingBuffer α capacity :=
  ⟨(a :: b.toList).take capacity, List.length_take_le _ _⟩

/-- The buffer without its newest entry. -/
def pop (b : RingBuffer α capacity) : RingBuffer α capacity :=
  ⟨b.toList.tail, Nat.le_trans (by simp) b.length_le⟩

def newest? (b : RingBuffer α capacity) : Option α := b.toList.head?

def oldest? (b : RingBuffer α capacity) : Option α := b.toList.getLast?

def length (b : RingBuffer α capacity) : Nat := b.toList.length

def isEmpty (b : RingBuffer α capacity) : Bool := b.toList.isEmpty

theorem ext {b c : RingBuffer α capacity} (h : b.toList = c.toList) : b = c := by
  cases b
  cases c
  cases h
  rfl

@[simp] theorem toList_empty : (empty : RingBuffer α capacity).toList = [] := rfl

@[simp] theorem toList_push (b : RingBuffer α capacity) (a : α) :
    (b.push a).toList = (a :: b.toList).take capacity := rfl

@[simp] theorem toList_pop (b : RingBuffer α capacity) : b.pop.toList = b.toList.tail := rfl

/-- Of the entries pushed one after another those stay that were pushed last. -/
theorem toList_foldl_push (b : RingBuffer α capacity) (as : List α) :
    (as.foldl push b).toList = (as.reverse ++ b.toList).take capacity := by
  induction as generalizing b with
  | nil => exact (List.take_of_length_le b.length_le).symm
  | cons a as ih =>
    rw [List.foldl_cons, ih, toList_push, List.reverse_cons, List.append_assoc,
      List.singleton_append, List.take_append, List.take_append, List.take_take,
      Nat.min_eq_left (Nat.sub_le _ _)]

end RingBuffer

end DivisionMicrocode
