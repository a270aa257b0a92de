/-!
# White space

The characters of the Unicode property `White_Space`, the tokens that they separate, and a text
without those at its ends.
-/

namespace DivisionMicrocode.Text

/-- The characters with the Unicode property `White_Space`. -/
def whiteSpace : List Char :=
  ['\u0009', '\u000a', '\u000b', '\u000c', '\u000d', '\u0020', '\u0085', '\u00a0', '\u1680',
    '\u2000', '\u2001', '\u2002', '\u2003', '\u2004', '\u2005', '\u2006', '\u2007', '\u2008',
    '\u2009', '\u200a', '\u2028', '\u2029', '\u202f', '\u205f', '\u3000']

def isWhiteSpace (c : Char) : Bool := whiteSpace.contains c

/-- The longest stretches of a text without white space, in order. -/
def tokens (cs : List Char) : List (List Char) :=
  (cs.splitOnP isWhiteSpace).filter (!·.isEmpty)

/-- A text without the white space at its two ends. -/
def trim (cs : List Char) : List Char :=
  ((cs.dropWhile isWhiteSpace).reverse.dropWhile isWhiteSpace).reverse

theorem isWhiteSpace_of_isAlphanum {c : Char} (h : c.isAlphanum = true) :
    isWhiteSpace c = false := by
  have hspace : whiteSpace.all (!·.isAlphanum) = true := by decide
  rw [Bool.eq_false_iff]
  intro hc
  have hnot := List.all_eq_true.1 hspace c (List.contains_iff_mem.1 hc)
  rw [h] at hnot
  exact nomatch hnot

theorem isWhiteSpace_of_all {cs : List Char} (h : cs.all (!isWhiteSpace ·) = true) :
    ∀ c ∈ cs, isWhiteSpace c = false := by
  intro c hc
  exact Bool.not_eq_eq_eq_not.1 (List.all_eq_true.1 h c hc)

@[simp] theorem tokens_nil : tokens [] = [] := rfl

/-- White space between two texts keeps their tokens apart. -/
theorem tokens_append_cons (cs ds : List Char) {c : Char} (h : isWhiteSpace c = true) :
    tokens (cs ++ c :: ds) = tokens cs ++ tokens ds := by
  rw [tokens, List.splitOnP_append_cons cs ds h, List.filter_append, tokens, tokens]

/-- A text without white space is a token, unless it is empty. -/
theorem tokens_of_forall {cs : List Char} (hne : cs ≠ [])
    (h : ∀ c ∈ cs, isWhiteSpace c = false) : tokens cs = [cs] := by
  cases cs with
  | nil => exact absurd rfl hne
  | cons c cs => rw [tokens, List.splitOnP_eq_singleton h]; rfl

theorem flatMap_tokens {ws : List (List Char)}
    (h : ∀ w ∈ ws, w ≠ [] ∧ ∀ c ∈ w, isWhiteSpace c = false) : ws.flatMap tokens = ws := by
  induction ws with
  | nil => rfl
  | cons w ws ih =>
    obtain ⟨⟨hne, hw⟩, hws⟩ := List.forall_mem_cons.1 h
    rw [List.flatMap_cons, tokens_of_forall hne hw, ih hws, List.singleton_append]

theorem tokens_of_forall_isWhiteSpace {cs : List Char} (h : ∀ c ∈ cs, isWhiteSpace c = true) :
    tokens cs = [] := by
  induction cs with
  | nil => rfl
  | cons c cs ih =>
    have hcs := ih fun d hd => h d (List.mem_cons_of_mem c hd)
    exact (tokens_append_cons [] cs (h c List.mem_cons_self)).trans hcs

theorem tokens_intercalate {c : Char} (h : isWhiteSpace c = true) (fs : List (List Char)) :
    tokens ([c].intercalate fs) = fs.flatMap tokens := by
  induction fs with
  | nil => rfl
  | cons f fs ih =>
    cases fs with
    | nil => simp
    | cons g fs =>
      rw [List.intercalate_cons_cons, List.append_assoc, List.singleton_append,
        tokens_append_cons f _ h, ih]
      rfl

/-- Blanks behind a text do not count. -/
theorem tokens_rightpad (width : Nat) (cs : List Char) :
    tokens (cs.rightpad width ' ') = tokens cs := by
  rw [List.rightpad]
  cases width - cs.length with
  | zero => rw [List.replicate_zero, List.append_nil]
  | succ k =>
    have hblank : tokens (List.replicate k ' ') = [] :=
      tokens_of_forall_isWhiteSpace fun c hc => List.eq_of_mem_replicate hc ▸ rfl
    rw [List.replicate_succ, tokens_append_cons cs _ rfl, hblank, List.append_nil]

end DivisionMicrocode.Text
