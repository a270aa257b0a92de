import DivisionMicrocode.Proofs.ClockOverflow
/-!
# The rounds in the events of a division

The loop invariant can be seen from outside: a division that comes to its rounds sends sixteen steps
before the microwords that start one, and they show the invariant with the counter going down from
sixteen. In between come the other microwords of a round, none of which starts one (`OneRound`), so
the steps that a collector selects by these two labels are those of `RoundHead`, one for each count
(`Path.forall₂_roundHead`).
-/

namespace DivisionMicrocode

open ControlStore LongDivision RegisterFile

/-- The two microwords that start a round. -/
def roundHeads (head : Bool → Microword) : List Microword := [head false, head true]

/-- The labels begin with one that starts a round, and no other of them starts one. -/
def OneRound (head : Bool → Microword) (bit : Bool) (labels : List Microword) : Prop :=
  ∃ more, labels = head bit :: more ∧ ∀ w ∈ more, w ∉ roundHeads head

/-- The registers of those microwords that are among `ws`. -/
def atMicrowords (ws : List Microword) (visited : List RegisterFile) : List RegisterFile :=
  visited.filter fun s => ws.contains s.controlState

variable {head : Bool → Microword} {r s t : RegisterFile} {i : Instruction} {n d k : Nat}
  {visited front : List RegisterFile} {ws setup rest : List Microword}
  {round : Nat → List Microword}

/-! ## The rounds of a path -/

/-- A path to a terminal microword begins as any other does. -/
theorem Path.exists_append (p : Path r visited t) (ht : t.controlState.isTerminal = true)
    (q : Path r front s) : ∃ more, visited = front ++ more ∧ Path s more t := by
  induction q generalizing visited with
  | nil => exact ⟨visited, rfl, p⟩
  | cons hi _ ih =>
      obtain ⟨rest, rfl, p'⟩ := p.exists_cons ht hi
      obtain ⟨more, rfl, p''⟩ := ih p'
      exact ⟨more, rfl, p''⟩

theorem atMicrowords_append (ws : List Microword) (visited more : List RegisterFile) :
    atMicrowords ws (visited ++ more) = atMicrowords ws visited ++ atMicrowords ws more :=
  List.filter_append visited more

theorem atMicrowords_cons_of_mem (h : s.controlState ∈ ws) (visited : List RegisterFile) :
    atMicrowords ws (s :: visited) = s :: atMicrowords ws visited :=
  List.filter_cons_of_pos (List.contains_iff_mem.2 h)

theorem atMicrowords_eq_nil (h : ∀ w ∈ visited.map (·.controlState), w ∉ ws) :
    atMicrowords ws visited = [] := by
  refine List.filter_eq_nil_iff.2 fun s hs => ?_
  rw [List.contains_iff_mem]
  exact h _ (List.mem_map_of_mem hs)

theorem head_mem_roundHeads (head : Bool → Microword) (bit : Bool) :
    head bit ∈ roundHeads head := by
  cases bit <;> simp [roundHeads]

/-- Of the microwords of one round the first one alone starts it. -/
theorem Path.atMicrowords_of_oneRound {bit : Bool} (p : Path r visited t)
    (h : OneRound head bit (visited.map (·.controlState))) :
    atMicrowords (roundHeads head) visited = [r] := by
  obtain ⟨more, hlabels, hmore⟩ := h
  cases p with
  | nil => cases hlabels
  | cons hi p =>
      rw [List.map_cons] at hlabels
      obtain ⟨hfirst, hrest⟩ := List.cons.inj hlabels
      rw [← hrest] at hmore
      have hhead : r.controlState ∈ roundHeads head := by
        rw [hfirst]
        exact head_mem_roundHeads head bit
      rw [atMicrowords_cons_of_mem hhead, atMicrowords_eq_nil hmore]

/-- The rounds of a path from the first of them on. The induction is on the rounds to come. -/
theorem Path.forall₂_roundHead_of_loop
    (hround : ∀ c s, 0 < c → c < 16 → RoundHead head r n d (c + 1) s →
      ∃ t, Leads s (round c) t ∧ RoundHead head r n d c t)
    (hlabels : ∀ c, OneRound head (quotientBit n d (c + 1)) (round c))
    (hrest : OneRound head (quotientBit n d 1) rest) (hk : k < 16)
    (p : Path s visited t) (ht : t.controlState.isTerminal = true)
    (h : RoundHead head r n d (k + 1) s)
    (hvisited : visited.map (·.controlState) = loopLabels round k ++ rest) :
    List.Forall₂ (RoundHead head r n d) (List.range' 1 (k + 1)).reverse
      (atMicrowords (roundHeads head) visited) := by
  induction k generalizing s visited with
  | zero =>
      rw [loopLabels, List.nil_append] at hvisited
      rw [p.atMicrowords_of_oneRound (hvisited ▸ hrest)]
      exact .cons h .nil
  | succ k ih =>
      obtain ⟨s', ⟨front, q, hfront⟩, h'⟩ := hround (k + 1) s (Nat.succ_pos k) hk h
      obtain ⟨more, rfl, p'⟩ := p.exists_append ht q
      rw [List.map_append, hfront, loopLabels, List.append_assoc] at hvisited
      have hlater := ih (by omega) p' h' (List.append_cancel_left hvisited)
      have hcount : (List.range' 1 (k + 1 + 1)).reverse =
          (k + 1 + 1) :: (List.range' 1 (k + 1)).reverse := by
        rw [List.range'_1_concat, List.reverse_concat, Nat.add_comm 1]
      rw [hcount, atMicrowords_append, q.atMicrowords_of_oneRound (hfront ▸ hlabels (k + 1))]
      exact .cons h hlater

/-- A division that comes to its rounds starts sixteen of them, each with the invariant. -/
theorem Path.forall₂_roundHead
    (hround : ∀ c s, 0 < c → c < 16 → RoundHead head r n d (c + 1) s →
      ∃ t, Leads s (round c) t ∧ RoundHead head r n d c t)
    (hlabels : ∀ c, OneRound head (quotientBit n d (c + 1)) (round c))
    (hrest : OneRound head (quotientBit n d 1) rest) (hsetup : ∀ w ∈ setup, w ∉ roundHeads head)
    (p : Path (r.enter i) visited t) (ht : t.controlState.isTerminal = true)
    (hfirst : ∃ s, Leads (r.enter i) setup s ∧ RoundHead head r n d 16 s)
    (hvisited : visited.map (·.controlState) = setup ++ (loopLabels round 15 ++ rest)) :
    List.Forall₂ (RoundHead head r n d) (List.range' 1 16).reverse
      (atMicrowords (roundHeads head) visited) := by
  obtain ⟨s, ⟨front, q, hfront⟩, h⟩ := hfirst
  obtain ⟨more, rfl, p'⟩ := p.exists_append ht q
  rw [List.map_append, hfront] at hvisited
  rw [← hfront] at hsetup
  rw [atMicrowords_append, atMicrowords_eq_nil hsetup]
  exact p'.forall₂_roundHead_of_loop hround hlabels hrest (by decide) ht h
    (List.append_cancel_left hvisited)

/-! ## What a round shows -/

theorem RoundHead.toNat_alu {c : Nat} (h : RoundHead head r n d c s) :
    s.alu.toNat = (n >>> c) % d := by
  rw [Nat.shiftRight_eq_div_pow]
  exact h.alu

theorem RoundHead.toNat_aluExt {c : Nat} (h : RoundHead head r n d c s) (hc : c ≤ 16)
    (hq : n / d < 0x10000) :
    s.aluExt.toNat = (n % 0x10000 * 2 ^ (16 - c) + (n / d) >>> (c + 1)) % 0x10000 :=
  h.aluExt.trans (shiftRegister_eq_mod hc hq)

/-- The label is the quotient bit that no register holds yet. -/
theorem RoundHead.controlState_eq_iff {c : Nat} (h : RoundHead head r n d c s)
    (hne : head false ≠ head true) : s.controlState = head true ↔ (n / d).testBit c = true := by
  have hw : s.controlState = head ((n / d).testBit c) := h.controlState
  rw [hw]
  cases (n / d).testBit c
  · exact iff_of_false hne nofun
  · exact iff_of_true rfl rfl

/-- The events that a filter selects by their microwords are steps. -/
theorem filter_accepts_events (r : RegisterFile) (i : Instruction) (ws : List Microword) :
    (r.events i).filter (EventFilter.microwords ws).accepts =
      (atMicrowords ws (r.divide i).visited).map fun s => .step (.ofRegisters s) := by
  rw [events_eq, Course.events, List.filter_append, List.filter_map]
  cases (r.divide i).result <;> exact List.append_nil _

/-- The counter goes down from sixteen over the rounds, and it tells what each of them shows. -/
theorem counters_of_forall₂ {cs : List Nat}
    (h : List.Forall₂ (RoundHead head r n d) cs visited) :
    visited.map (·.counter.toNat) = cs ∧
      ∀ s ∈ visited, s.counter.toNat ∈ cs ∧ RoundHead head r n d s.counter.toNat s := by
  induction h with
  | nil => exact ⟨rfl, List.forall_mem_nil _⟩
  | @cons c s cs visited hs _ ih =>
      obtain rfl : s.counter.toNat = c := hs.counter
      refine ⟨?_, List.forall_mem_cons.2 ⟨⟨List.mem_cons_self, hs⟩, fun t ht => ?_⟩⟩
      · rw [List.map_cons, ih.1]
      · exact ⟨List.mem_cons_of_mem _ (ih.2 t ht).1, (ih.2 t ht).2⟩

/-- The steps before the microwords that start a round are those of the sixteen rounds. -/
theorem exists_steps_of_forall₂
    (h : List.Forall₂ (RoundHead head r n d) (List.range' 1 16).reverse
      (atMicrowords (roundHeads head) (r.divide i).visited)) :
    ∃ starts : List Snapshot,
      (r.events i).filter (EventFilter.microwords (roundHeads head)).accepts =
          starts.map .step ∧
        starts.map (·.counter.toNat) = (List.range' 1 16).reverse ∧
        ∀ q ∈ starts, ∃ s, q = .ofRegisters s ∧ s.counter.toNat ≤ 16 ∧
          RoundHead head r n d s.counter.toNat s := by
  obtain ⟨hcounters, hheads⟩ := counters_of_forall₂ h
  refine ⟨(atMicrowords (roundHeads head) (r.divide i).visited).map .ofRegisters, ?_, ?_, ?_⟩
  · rw [filter_accepts_events, List.map_map]
    rfl
  · rw [List.map_map]
    exact hcounters
  · intro q hq
    obtain ⟨s, hs, rfl⟩ := List.mem_map.1 hq
    obtain ⟨hmem, hhead⟩ := hheads s hs
    rw [List.mem_reverse, List.mem_range'_1] at hmem
    exact ⟨s, rfl, by omega, hhead⟩

theorem length_of_counters {starts : List Snapshot}
    (h : starts.map (·.counter.toNat) = (List.range' 1 16).reverse) : starts.length = 16 := by
  rw [← List.length_map, h]
  rfl

/-! ## The unsigned division -/

theorem oneRound_unsignedRoundLabels (n d c : Nat) :
    OneRound unsignedHead (quotientBit n d (c + 1)) (unsignedRoundLabels n d c) := by
  refine ⟨_, rfl, ?_⟩
  cases losesBit n d c <;> cases quotientBit n d c <;> decide

theorem oneRound_unsignedFinishLabels (n d : Nat) :
    OneRound unsignedHead (quotientBit n d 1) (unsignedFinishLabels n d) := by
  refine ⟨_, rfl, ?_⟩
  cases losesBit n d 0 <;> cases quotientBit n d 0 <;> decide

theorem forall₂_roundHead_divu (hcounted : (r.divide .divu).Counted) (hd : r.divisor ≠ 0)
    (hq : r.dividend.toNat / r.divisor.toNat < 0x10000) :
    List.Forall₂ (RoundHead unsignedHead r r.dividend.toNat r.divisor.toNat)
      (List.range' 1 16).reverse
      (atMicrowords (roundHeads unsignedHead) (r.divide .divu).visited) := by
  have hpos := (toNat_pos_iff r.divisor).2 hd
  obtain ⟨t, h⟩ := exists_completes_divu r
  obtain ⟨visited, p, hlabels, hdivide⟩ := h.exists_divide_eq hcounted
  rw [unsignedLabels, if_neg hpos.ne', if_neg (Nat.not_le.2 hq)] at hlabels
  rw [hdivide]
  exact p.forall₂_roundHead (exists_unsigned_round hpos r.divisor.isLt hq)
    (oneRound_unsignedRoundLabels _ _) (oneRound_unsignedFinishLabels _ _) (by decide) h.isTerminal
    (exists_unsigned_setup hd hq) hlabels

/-- An unsigned division that comes to its rounds sends sixteen steps before the microwords that
start one, and the counter goes down from sixteen in them. They show the partial remainder, the
divisor, the sign of the partial remainder, and the unused bits of the dividend above the finished
bits of the quotient; the newest of these bits is told by the label alone. -/
theorem events_show_unsigned_rounds (r : RegisterFile) (hcounted : (r.divide .divu).Counted)
    (hd : r.divisor ≠ 0) (hq : r.dividend.toNat / r.divisor.toNat < 0x10000) :
    let q := r.dividend.toNat / r.divisor.toNat
    let labels : List Microword := [.unsigned .dvum5, .unsigned .dvum6]
    ∃ starts : List Snapshot,
      (r.events .divu).filter (EventFilter.microwords labels).accepts = starts.map .step ∧
        starts.map (·.counter.toNat) = (List.range' 1 16).reverse ∧
        ∀ s ∈ starts,
          let c := s.counter.toNat
          s.alu.toNat = (r.dividend.toNat >>> c) % r.divisor.toNat ∧
            s.aluBuf = r.divisor ∧
            s.flags.negative = s.alu.getLsbD 15 ∧
            (s.microword = .unsigned .dvum6 ↔ q.testBit c = true) ∧
            (c = 16 → s.microword = .unsigned .dvum5) ∧
            s.aluExt.toNat =
              (r.dividendLo.toNat * 2 ^ (16 - c) + q >>> (c + 1)) % 2 ^ 16 := by
  intro q labels
  obtain ⟨starts, hevents, hcounters, hstarts⟩ :=
    exists_steps_of_forall₂ (forall₂_roundHead_divu hcounted hd hq)
  refine ⟨starts, hevents, hcounters, fun s hs => ?_⟩
  obtain ⟨s, rfl, hc, h⟩ := hstarts s hs
  have hlabel := h.controlState_eq_iff (by decide)
  refine ⟨h.toNat_alu, BitVec.eq_of_toNat_eq h.aluBuf, ?_, hlabel, fun hlast => ?_, ?_⟩
  · rw [← BitVec.msb_eq_getLsbD_last]
    exact h.negative
  · rw [show s.counter.toNat = 16 from hlast] at h
    have hw := h.controlState
    rw [quotientBit_sixteen hq] at hw
    exact hw
  · rw [RegisterFile.toNat_dividendLo]
    exact h.toNat_aluExt hc hq

/-- The greatest quotient with the greatest remainder, where every round loses a bit, on a clock
that is set. -/
theorem events_show_unsigned_rounds_greatest :
    let r := staleRegisters 0xFFFEFFFF 0xFFFF 1000
    let labels : List Microword := [.unsigned .dvum5, .unsigned .dvum6]
    (r.divide .divu).Counted ∧ r.divisor ≠ 0 ∧
      r.dividend.toNat / r.divisor.toNat < 0x10000 ∧
      ((r.events .divu).filter (EventFilter.microwords labels).accepts).length = 16 ∧
      ∀ s, .step s ∈ (r.events .divu).filter (EventFilter.microwords labels).accepts →
        s.counter = 7 → s.alu = 0xFFFE ∧ s.microword = .unsigned .dvum6 := by
  intro r labels
  have hcounted : (r.divide .divu).Counted := counted_divide_iff.2 (by decide +kernel)
  have hd : r.divisor ≠ 0 := by decide
  have hq : r.dividend.toNat / r.divisor.toNat < 0x10000 := by decide +kernel
  obtain ⟨starts, hevents, hcounters, hstarts⟩ := events_show_unsigned_rounds r hcounted hd hq
  refine ⟨hcounted, hd, hq, ?_, fun s hs hcounter => ?_⟩
  · rw [hevents, List.length_map, length_of_counters hcounters]
  · rw [hevents, List.mem_map_of_injective (fun _ _ => Event.step.inj)] at hs
    obtain ⟨halu, -, -, hlabel, -⟩ := hstarts s hs
    rw [hcounter] at halu hlabel
    exact ⟨BitVec.eq_of_toNat_eq (halu.trans (by decide +kernel)), hlabel.2 (by decide +kernel)⟩

/-! ## The signed division -/

theorem oneRound_signedRoundLabels (n d c : Nat) :
    OneRound signedHead (quotientBit n d (c + 1)) (signedRoundLabels n d c) := by
  refine ⟨_, rfl, ?_⟩
  cases quotientBit n d c <;> decide

theorem oneRound_signedLastLabels (n d : Nat) :
    OneRound signedHead (quotientBit n d 1) (signedLastLabels n d) := by
  refine ⟨_, rfl, ?_⟩
  cases quotientBit n d 0 <;> decide

theorem OneRound.append {bit : Bool} {labels following : List Microword}
    (h : OneRound head bit labels) (hfollowing : ∀ w ∈ following, w ∉ roundHeads head) :
    OneRound head bit (labels ++ following) := by
  obtain ⟨more, rfl, hmore⟩ := h
  exact ⟨more ++ following, rfl, List.forall_mem_append.2 ⟨hmore, hfollowing⟩⟩

theorem notMem_roundHeads_signedSetupLabels (x y : Bool) :
    ∀ w ∈ signedSetupLabels x y, w ∉ roundHeads signedHead := by
  cases x <;> cases y <;> decide

/-- What comes after the rounds starts no other, whether the quotient shows its sign or not. -/
theorem exists_signedLabels_eq {dividend : Long} {divisor : Word} (hd : divisor ≠ 0)
    (hq : magnitude dividend / magnitude divisor < 0x10000) :
    ∃ rest, OneRound signedHead (quotientBit (magnitude dividend) (magnitude divisor) 1) rest ∧
      signedLabels dividend divisor =
        signedSetupLabels divisor.msb dividend.msb ++
          (loopLabels (signedRoundLabels (magnitude dividend) (magnitude divisor)) 15 ++ rest) := by
  have hlast := oneRound_signedLastLabels (magnitude dividend) (magnitude divisor)
  have hback : ∀ x y, ∀ w ∈ signsLabels x y ++ writeBackLabels y, w ∉ roundHeads signedHead := by
    decide
  have hlate : ∀ x y, ∀ w ∈ signsLabels x y ++ lateOverflowLabels y,
      w ∉ roundHeads signedHead := by
    decide
  rw [signedLabels, if_neg hd, if_neg (Nat.not_le.2 hq), signedTestLabels]
  split
  · refine ⟨_, hlast.append (hback divisor.msb dividend.msb), ?_⟩
    simp only [List.append_assoc]
  · refine ⟨_, hlast.append (hlate divisor.msb dividend.msb), ?_⟩
    simp only [List.append_assoc]

theorem forall₂_roundHead_divs (hcounted : (r.divide .divs).Counted) (hd : r.divisor ≠ 0)
    (hq : magnitude r.dividend / magnitude r.divisor < 0x10000) :
    List.Forall₂ (RoundHead signedHead r (magnitude r.dividend) (magnitude r.divisor))
      (List.range' 1 16).reverse
      (atMicrowords (roundHeads signedHead) (r.divide .divs).visited) := by
  have hpos : 0 < magnitude r.divisor := (magnitude_pos_iff r.divisor).2 hd
  obtain ⟨t, h⟩ := exists_completes_divs r
  obtain ⟨visited, p, hlabels, hdivide⟩ := h.exists_divide_eq hcounted
  obtain ⟨rest, hrest, hsplit⟩ := exists_signedLabels_eq hd hq
  rw [hdivide]
  exact p.forall₂_roundHead (exists_signed_round hpos (magnitude_le r.divisor) hq)
    (oneRound_signedRoundLabels _ _) hrest (notMem_roundHeads_signedSetupLabels _ _) h.isTerminal
    (exists_signed_start hd hq) (hlabels.trans hsplit)

theorem events_divs_of_le (hd : r.divisor ≠ 0)
    (hq : 0x10000 ≤ magnitude r.dividend / magnitude r.divisor) :
    (r.events .divs).filter (EventFilter.microwords (roundHeads signedHead)).accepts = [] := by
  have hnone : ∀ w ∈ signedLabels r.dividend r.divisor, w ∉ roundHeads signedHead := by
    rw [signedLabels, if_neg hd, if_pos hq]
    exact List.forall_mem_append.2 ⟨notMem_roundHeads_signedSetupLabels _ _, by decide⟩
  rw [filter_accepts_events, atMicrowords_eq_nil, List.map_nil]
  intro w hw
  obtain ⟨s, hs, rfl⟩ := List.mem_map.1 hw
  exact hnone _ (controlState_mem_labels hs)

/-! ### The shift of a round -/

/-- The shift loses no bit of the shift register if its top bit is clear. -/
theorem Follows.shift {inject : Bool} {next : Branch} (h : Follows s t)
    (hfetch : fetch s.controlState = some (shiftRound inject next)) (hsmall : s.alu.toNat < 0x8000) :
    t.alu.toNat * 0x10000 + t.aluExt.toNat =
      2 * (s.alu.toNat * 0x10000 + s.aluExt.toNat) + inject.toNat := by
  obtain ⟨m, hm, rfl⟩ := h.performed
  obtain rfl := Option.some.inj (hm.symm.trans hfetch)
  have hext := s.aluExt.isLt
  have hinject := Bool.toNat_lt inject
  rw [pass_shiftRound]
  simp only [toNat_shiftConcat, toNat_msb]
  omega

theorem isChain_follows_divide (hcounted : (r.divide i).Counted) :
    ((r.divide i).visited ++ [(r.divide i).final]).IsChain Follows := by
  obtain ⟨t, h⟩ := exists_completes r i
  obtain ⟨visited, p, -, hdivide⟩ := h.exists_divide_eq hcounted
  rw [hdivide]
  exact p.isChain_follows (lt_of_counted_run p h.isTerminal hcounted)

theorem map_state_events {o : Outcome} (hresult : (r.divide i).result = .ok o) :
    (r.events i).map Event.state =
      ((r.divide i).visited ++ [(r.divide i).final]).map .ofRegisters := by
  rw [events_of_result hresult, List.map_append, List.map_map, List.map_append]
  rfl

theorem fetch_signedHead (bit : Bool) :
    fetch (signedHead bit) = some (shiftRound bit (.goto (.signed .dvs0c))) := by
  cases bit <;> rfl

/-- In a signed division the partial remainder is below an absolute divisor, so its top bit is
clear. -/
theorem RoundStart.toNat_alu_lt {c : Nat} (h : RoundStart r n d c s) (hd : 0 < d)
    (hhalf : d ≤ 0x8000) : s.alu.toNat < 0x8000 := by
  have hlt : partialRemainder n d c < d := partialRemainder_lt hd
  rw [h.alu]
  omega

theorem isChain_shift_divs (hcounted : (r.divide .divs).Counted) (hd : r.divisor ≠ 0)
    (hq : magnitude r.dividend / magnitude r.divisor < 0x10000) :
    ((r.divide .divs).visited ++ [(r.divide .divs).final]).IsChain fun s t =>
      s.controlState ∈ roundHeads signedHead →
        t.alu.toNat * 0x10000 + t.aluExt.toNat =
          2 * (s.alu.toNat * 0x10000 + s.aluExt.toNat) +
            if s.controlState = signedHead true then 1 else 0 := by
  have hpos : 0 < magnitude r.divisor := (magnitude_pos_iff r.divisor).2 hd
  have hheads := (counters_of_forall₂ (forall₂_roundHead_divs hcounted hd hq)).2
  have hterminal : (r.divide .divs).final.controlState.isTerminal = true := by
    obtain ⟨t, h⟩ := exists_completes_divs r
    rw [h.final_eq hcounted]
    exact h.isTerminal
  refine List.IsChain.imp_of_mem_imp (fun s t hs _ h hw => ?_) (isChain_follows_divide hcounted)
  rcases List.mem_append.1 hs with hs | hs
  · have hstart : s ∈ atMicrowords (roundHeads signedHead) (r.divide .divs).visited :=
      List.mem_filter.2 ⟨hs, List.contains_iff_mem.2 hw⟩
    obtain ⟨-, hhead⟩ := hheads s hstart
    have hbit := hhead.controlState
    have hfetch := (congrArg fetch hbit).trans (fetch_signedHead _)
    rw [h.shift hfetch (hhead.toNat_alu_lt hpos (magnitude_le r.divisor)), hbit]
    generalize quotientBit (magnitude r.dividend) (magnitude r.divisor) s.counter.toNat = bit
    cases bit <;> rfl
  · -- no microword follows the last registers
    obtain rfl := List.mem_singleton.1 hs
    obtain ⟨m, hm, -⟩ := h.performed
    rw [isTerminal_of_fetch hm] at hterminal
    cases hterminal

/-- A signed division with a quotient of the absolute values that fits a word sends sixteen steps
before the microwords that start a round, and the counter goes down from sixteen in them. They show
the partial remainder of the absolute values, the absolute divisor, and the unused bits of the
absolute dividend above the finished bits of the quotient; the newest of these bits is told by the
label alone. The absolute divisor is at most `0x8000`, so the top bit of the shift register is clear
and the event behind each of these steps shows its content doubled, with the newest quotient bit at
its end. If the quotient does not fit, there is no such step. -/
theorem events_show_signed_rounds (r : RegisterFile) (hd : r.divisor ≠ 0) :
    let n := r.dividend.toInt.natAbs
    let d := r.divisor.toInt.natAbs
    let q := n / d
    let labels : List Microword := [.signed .dvs09, .signed .dvs0a]
    let selected := (r.events .divs).filter (EventFilter.microwords labels).accepts
    (q < 0x10000 → (r.divide .divs).Counted →
      (∃ starts : List Snapshot,
        selected = starts.map .step ∧
          starts.map (·.counter.toNat) = (List.range' 1 16).reverse ∧
          ∀ s ∈ starts,
            let c := s.counter.toNat
            s.alu.toNat = (n >>> c) % d ∧
              s.aluBuf.toNat = d ∧ d ≤ 0x8000 ∧ s.alu.toNat < 0x8000 ∧
              (s.microword = .signed .dvs0a ↔ q.testBit c = true) ∧
              s.aluExt.toNat = (n % 2 ^ 16 * 2 ^ (16 - c) + q >>> (c + 1)) % 2 ^ 16) ∧
        ((r.events .divs).map Event.state).IsChain fun s s' =>
          s.microword ∈ labels →
            s'.alu.toNat * 2 ^ 16 + s'.aluExt.toNat =
              2 * (s.alu.toNat * 2 ^ 16 + s.aluExt.toNat) +
                if s.microword = .signed .dvs0a then 1 else 0) ∧
      (0x10000 ≤ q → selected = []) := by
  intro n d q labels selected
  have hn : magnitude r.dividend = n := magnitude_eq_natAbs r.dividend
  have hd' : magnitude r.divisor = d := magnitude_eq_natAbs r.divisor
  have hpos : 0 < d := hd' ▸ (magnitude_pos_iff r.divisor).2 hd
  have hhalf : d ≤ 0x8000 := hd' ▸ magnitude_le r.divisor
  constructor
  · intro hq hcounted
    have hfits : magnitude r.dividend / magnitude r.divisor < 0x10000 := by
      rw [hn, hd']
      exact hq
    have hrounds := forall₂_roundHead_divs hcounted hd hfits
    rw [hn, hd'] at hrounds
    obtain ⟨starts, hevents, hcounters, hstarts⟩ := exists_steps_of_forall₂ hrounds
    refine ⟨⟨starts, hevents, hcounters, fun s hs => ?_⟩, ?_⟩
    · obtain ⟨s, rfl, hc, h⟩ := hstarts s hs
      exact ⟨h.toNat_alu, h.aluBuf, hhalf, h.toNat_alu_lt hpos hhalf,
        h.controlState_eq_iff (by decide), h.toNat_aluExt hc hq⟩
    · obtain ⟨t, h⟩ := exists_completes r .divs
      rw [map_state_events (h.result_eq hcounted), List.isChain_map]
      exact isChain_shift_divs hcounted hd hfits
  · intro hq
    apply events_divs_of_le hd
    rw [hn, hd']
    exact hq

/-- The greatest absolute divisor, with the greatest quotient that it leaves room for on a clock
that is set, and with the least one that needs more than a word. -/
theorem events_show_signed_rounds_greatest_divisor :
    let r := staleRegisters 0x80008000 0x8000 1000
    let s := staleRegisters 0x80000000 0x8000 0
    let labels : List Microword := [.signed .dvs09, .signed .dvs0a]
    (r.divisor ≠ 0 ∧ r.dividend.toInt.natAbs / r.divisor.toInt.natAbs = 0xFFFF ∧
        (r.divide .divs).Counted ∧
        ((r.events .divs).filter (EventFilter.microwords labels).accepts).length = 16 ∧
        ∀ e, .step e ∈ (r.events .divs).filter (EventFilter.microwords labels).accepts →
          e.aluBuf = 0x8000) ∧
      s.divisor ≠ 0 ∧ s.dividend.toInt.natAbs / s.divisor.toInt.natAbs = 0x10000 ∧
        (s.events .divs).filter (EventFilter.microwords labels).accepts = [] := by
  intro r s labels
  have hcounted : (r.divide .divs).Counted := counted_divide_iff.2 (by decide +kernel)
  have hd : r.divisor ≠ 0 := by decide
  have hd' : s.divisor ≠ 0 := by decide
  have hq : r.dividend.toInt.natAbs / r.divisor.toInt.natAbs = 0xFFFF := by decide +kernel
  have hq' : s.dividend.toInt.natAbs / s.divisor.toInt.natAbs = 0x10000 := by decide +kernel
  obtain ⟨starts, hevents, hcounters, hstarts⟩ :=
    ((events_show_signed_rounds r hd).1 (by rw [hq]; decide) hcounted).1
  have hnone := (events_show_signed_rounds s hd').2 hq'.ge
  refine ⟨⟨hd, hq, hcounted, ?_, fun e he => ?_⟩, hd', hq', hnone⟩
  · rw [hevents, List.length_map, length_of_counters hcounters]
  · rw [hevents, List.mem_map_of_injective (fun _ _ => Event.step.inj)] at he
    obtain ⟨-, hbuf, -⟩ := hstarts e he
    exact BitVec.eq_of_toNat_eq hbuf

end DivisionMicrocode
