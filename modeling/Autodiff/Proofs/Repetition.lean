import Autodiff.Proofs.Discarding

namespace Autodiff

open History Occurrence

variable {F : Type} [Scalar F] {n : Nat}

omit [Scalar F] in
theorem Event.seen_of_ready {e : Event F} {traits : Traits} {q : Identifier → F} (h : e.Ready q) :
    e.seen traits q = e := by
  cases e with
  | elementary => rfl
  | input => rfl
  | product c =>
    have hsame : ∀ x ∈ c.left ++ c.right, x.seen q = x := by
      intro x hx
      cases hactive : x.isActive with
      | false => exact Variable.seen_of_isActive_eq_false q hactive
      | true => simp [Variable.seen, hactive, h x hx hactive]
    have hmap {xs : List (Variable F)} (hxs : ∀ x ∈ xs, x ∈ c.left ++ c.right) :
        xs.map (·.seen q) = xs :=
      (List.map_congr_left fun x hx => hsame x (hxs x hx)).trans (List.map_id xs)
    rw [Event.seen, Product.Call.seen, hmap fun x hx => List.mem_append_left _ hx,
      hmap fun x hx => List.mem_append_right _ hx]
    split <;> rfl

theorem Occurrence.primals_forwardAll {traits : Traits} {os : List (Occurrence F)}
    {x : SweepState F}
    (hready : ∀ earlier o later, os = earlier ++ o :: later →
      o.event.Ready (overwrite x.primals (writes (earlier.map event)))) :
    (forwardAll traits os x).primals = overwrite x.primals (writes (os.map event)) := by
  induction os using List.reverseRecOn with
  | nil => rfl
  | append_singleton os o ih =>
    have hfirst := ih fun earlier o' later hos =>
      hready earlier o' (later ++ [o]) (by rw [hos, List.append_assoc]; rfl)
    have hlast := hready os o [] rfl
    rw [← hfirst] at hlast
    rw [forwardAll_append, List.map_append, List.map_singleton, writes_append, overwrite_append,
      ← hfirst]
    change ((o.event.seen traits _).redo _) = _
    rw [Event.seen_of_ready hlast]
    rfl

namespace History

theorem overwrite_middle {before middle after : History F}
    (hfree : ∀ id ∈ (writes middle).map Prod.fst, id ∈ (writes after).map Prod.fst →
      id = passive) :
    overwrite (primals (before ++ middle ++ after)) (writes middle) =
      primals (before ++ middle ++ after) := by
  funext id
  by_cases hid : id = passive
  · rw [hid, overwrite_passive]
  · by_cases hmem : id ∈ (writes middle).map Prod.fst
    · have hafter : id ∉ (writes after).map Prod.fst := fun h => hid (hfree id hmem h)
      rw [primals_append_of_notMem hafter, primals_append_writes before]
      exact overwrite_congr_of_mem _ _ hid hmem
    · exact overwrite_of_notMem _ hmem

end History

namespace Ledger.Sound

variable {σ : Ledger F n}

theorem ready_again (h : σ.Sound) {before earlier later : History F}
    {e : Event F} (hhistory : σ.history = before ++ earlier ++ e :: later)
    (hfree : ∀ id, e.Reads id → id ∈ (writes (e :: later)).map Prod.fst →
      id ∈ (writes earlier).map Prod.fst) :
    e.Ready (overwrite (primals σ.history) (writes earlier)) := by
  cases e with
  | elementary => trivial
  | input => trivial
  | product c =>
    intro x hx hactive
    have hne : x.identifier ≠ passive := by simpa [Variable.isActive] using hactive
    have hinitial : before ++ earlier ++ [.product c] <+: σ.history :=
      ⟨later, by rw [hhistory]; simp⟩
    obtain ⟨-, hvalue⟩ := h.known _ c hinitial x hx hne
    rw [← hvalue]
    by_cases hmem : x.identifier ∈ (writes earlier).map Prod.fst
    · rw [primals_append_writes]
      exact overwrite_congr_of_mem _ _ hne hmem
    · have hlater : x.identifier ∉ (writes (.product c :: later)).map Prod.fst := fun hl =>
        hmem (hfree _ ⟨x, hx, hactive, rfl⟩ hl)
      rw [overwrite_of_notMem _ hmem, hhistory, primals_append_of_notMem hlater]

section Linear

variable (h : σ.Sound) (hd : DistinctActive ((writes σ.history).map Prod.fst))
include h hd

omit h in
theorem overwrite_again {es : History F} (hes : ∀ e ∈ es, e ∈ σ.history) :
    overwrite (primals σ.history) (writes es) = primals σ.history := by
  refine overwrite_eq_self fun w hw hne => overwrite_of_mem _ hd ?_ hne
  obtain ⟨e, he, hw⟩ := List.mem_flatMap.mp hw
  exact List.mem_flatMap.mpr ⟨e, hes e he, hw⟩

theorem ready_of_distinct {e : Event F} (he : e ∈ σ.history) : e.Ready (primals σ.history) := by
  obtain ⟨es, fs, hhistory⟩ := List.append_of_mem he
  cases e with
  | elementary => trivial
  | input => trivial
  | product c =>
    intro x hx hactive
    have hinitial : es ++ [.product c] <+: σ.history := ⟨fs, by rw [hhistory]; simp⟩
    exact (h.known es c hinitial x hx).of_distinct hd ((List.prefix_append ..).trans hinitial)
      (by simpa [Variable.isActive] using hactive)

end Linear

end Ledger.Sound

namespace Tape

def overwrittenBy (t : Tape F) (sts : List (Statement F)) : List Identifier :=
  sts.flatMap t.overwritten

/-- Where primals are rolled back, the statements of the range are the last ones to overwrite what
they overwrite, and a record that has lost a factor to itself or to a later statement finds it
written again in the range before. -/
def Repeats (t : Tape F) (start stop : Position) : Prop :=
  t.traits.rollsBack = true → ∀ k (h : k < (t.range start stop).length),
    (∀ id ∈ t.overwritten (t.range start stop)[k],
      id ∈ t.overwrittenBy (t.log.drop stop.statements) → id = passive) ∧
    ∀ id ∈ t.factors (t.range start stop)[k],
      id ∈ t.overwrittenBy (t.log.drop (start.statements + k)) →
        id ∈ t.overwrittenBy ((t.range start stop).take k) ∨ id = passive

instance (t : Tape F) (start stop : Position) : Decidable (t.Repeats start stop) :=
  inferInstanceAs (Decidable (_ → _))

theorem Covers.overwrittenBy_eq [LawfulCells F] {t : Tape F} {token : Token}
    {log : List (Statement F)} {os : List (Occurrence F)} (h : t.Covers token log os) :
    t.overwrittenBy log = (writes (os.map Occurrence.event)).map Prod.fst := by
  induction h with
  | nil => rfl
  | @cons st o log os hst _ ih =>
    rw [overwrittenBy, List.flatMap_cons, overwritten_eq hst.1, List.map_cons, writes,
      List.flatMap_cons, List.map_append]
    exact congrArg _ ih

section Sweep

variable {t : Tape F} {token : Token} {σ : Ledger F n} {os : List (Occurrence F)}
  {start stop : Position}

theorem primals_forwardAll_of_distinct {traits : Traits} (hσ : σ.Sound)
    (hevents : ∀ o ∈ os, o.event ∈ σ.history)
    (hd : DistinctActive ((writes σ.history).map Prod.fst)) (u : Slots F) :
    (forwardAll traits os ⟨u, primals σ.history⟩).primals = primals σ.history := by
  have hmap {os' : List (Occurrence F)} (hos' : ∀ o ∈ os', o ∈ os) :
      ∀ e ∈ os'.map Occurrence.event, e ∈ σ.history := by
    intro e he
    obtain ⟨o, ho, rfl⟩ := List.mem_map.mp he
    exact hevents o (hos' o ho)
  rw [primals_forwardAll, Ledger.Sound.overwrite_again hd (hmap fun o ho => ho)]
  intro earlier o later hsplit
  rw [Ledger.Sound.overwrite_again hd (hmap fun o ho => by simp [hsplit, ho])]
  exact hσ.ready_of_distinct hd (hevents o (by simp [hsplit]))

theorem Covers.primals_forwardAll_of_repeats [LawfulCells F] (hcovers : t.Covers token t.log os)
    (hσ : σ.Sound) (hevents : os.map Occurrence.event = σ.history)
    (hb : t.traits.rollsBack = true) (hspan : start.statements ≤ stop.statements)
    (hrepeats : t.Repeats start stop) (u : Slots F) :
    (forwardAll t.traits ((os.take stop.statements).drop start.statements)
      ⟨u, primals σ.history⟩).primals = primals σ.history := by
  have hslice := hcovers.slice start.statements stop.statements
  have hafter : t.Covers token (t.log.drop stop.statements) (os.drop stop.statements) :=
    List.forall₂_drop _ hcovers
  have hsplit : os.take start.statements ++ (os.take stop.statements).drop start.statements ++
      os.drop stop.statements = os := by
    have hmiddle := slice_append os (Nat.zero_le start.statements) hspan
    rw [List.drop_zero, List.drop_zero] at hmiddle
    rw [hmiddle, List.take_append_drop]
  set middle := (os.take stop.statements).drop start.statements
  have hhistory : σ.history = (os.take start.statements).map event ++ middle.map event ++
      (os.drop stop.statements).map event := by
    rw [← List.map_append, ← List.map_append, hsplit, hevents]
  rw [primals_forwardAll]
  · rw [hhistory]
    apply overwrite_middle
    intro id hid hid'
    rw [← hslice.overwrittenBy_eq] at hid
    rw [← hafter.overwrittenBy_eq] at hid'
    obtain ⟨st, hst, hid⟩ := List.mem_flatMap.mp hid
    obtain ⟨k, hk, rfl⟩ := List.getElem_of_mem hst
    exact (hrepeats hb k hk).1 id hid hid'
  · intro earlier o later hmiddle
    have hlength : earlier.length < (t.range start stop).length := by
      rw [range, hslice.length_eq]
      simp [hmiddle]
    have hst := hslice.get hlength (by simp [hmiddle])
    simp only [List.get_eq_getElem, hmiddle, List.getElem_append_right (Nat.le_refl _),
      Nat.sub_self, List.getElem_cons_zero] at hst
    have hearlier : t.Covers token ((t.range start stop).take earlier.length) earlier := by
      have htake := List.forall₂_take earlier.length hslice
      rwa [hmiddle, List.take_left] at htake
    have hlater : t.Covers token (t.log.drop (start.statements + earlier.length))
        (o :: (later ++ os.drop stop.statements)) := by
      have hdrop := List.forall₂_drop (start.statements + earlier.length) hcovers
      have hrest : os.drop start.statements = middle ++ os.drop stop.statements := by
        have happend : os.take start.statements ++ os.drop start.statements =
            os.take start.statements ++ (middle ++ os.drop stop.statements) := by
          rw [List.take_append_drop, ← List.append_assoc, hsplit]
        exact List.append_cancel_left happend
      rwa [← List.drop_drop (l := os), hrest, hmiddle, List.append_assoc, List.drop_left] at hdrop
    have hsplitted : σ.history = (os.take start.statements).map event ++ earlier.map event ++
        o.event :: (later ++ os.drop stop.statements).map event := by
      rw [hhistory, hmiddle]
      simp
    apply hσ.ready_again hsplitted
    intro id hreads hid
    have hfactor := mem_factors hst.1 hreads
    have hlost : id ∈ t.overwrittenBy (t.log.drop (start.statements + earlier.length)) := by
      rw [hlater.overwrittenBy_eq]
      exact hid
    rcases (hrepeats hb earlier.length hlength).2 id hfactor hlost with hagain | hpassive
    · rwa [hearlier.overwrittenBy_eq] at hagain
    · exact absurd hpassive hreads.ne_passive

theorem Covers.primals_forwardAll [LawfulCells F] (hcovers : t.Covers token t.log os)
    (hσ : σ.Sound)
    (hevents : os.map Occurrence.event = σ.history.filter (Event.isLogged t.traits))
    (hlinear : t.traits.linear = σ.issuer.policy.isLinear) (hp : t.traits.hasPrimals = true)
    (hspan : start.statements ≤ stop.statements) (hrepeats : t.Repeats start stop) (u : Slots F) :
    (forwardAll t.traits ((os.take stop.statements).drop start.statements)
      ⟨u, primals σ.history⟩).primals = primals σ.history := by
  rcases hσ.linear_or_rollsBack hlinear hp with ⟨hd, -⟩ | hb
  · refine primals_forwardAll_of_distinct hσ (fun o ho => ?_) hd u
    have hmem := List.mem_of_mem_take (List.mem_of_mem_drop ho)
    have hevent : o.event ∈ os.map Occurrence.event := List.mem_map_of_mem hmem
    rw [hevents] at hevent
    exact List.mem_of_mem_filter hevent
  · refine hcovers.primals_forwardAll_of_repeats hσ ?_ hb hspan hrepeats u
    rw [hevents]
    exact List.filter_eq_self.mpr fun e _ => e.isLogged_of_rollsBack hb

theorem Covers.repeats_whole [LawfulCells F] (hcovers : t.Covers token t.log os) (hσ : σ.Sound)
    (hevents : t.traits.rollsBack = true → os.map Occurrence.event = σ.history) :
    t.Repeats .zero t.position := by
  have hrange : t.range .zero t.position = t.log := t.range_zero_position
  have hzero : Position.zero.statements = 0 := rfl
  intro hb k hk
  simp only [hrange, hzero, Nat.zero_add] at hk ⊢
  constructor
  · intro id _ hid
    rw [position, statementCount, List.drop_length] at hid
    cases hid
  · intro id hid _
    by_cases hne : id = passive
    · exact .inr hne
    · left
      have hk' : k < os.length := hcovers.length_eq ▸ hk
      have hst := hcovers.get hk hk'
      have hbefore : t.Covers token (t.log.take k) (os.take k) := List.forall₂_take k hcovers
      rw [hbefore.overwrittenBy_eq]
      refine hσ.mem_writes_before ?_ (reads_of_mem_factors hst.1 hid hne)
      rw [← hevents hb, ← List.map_singleton, ← List.map_append]
      refine ⟨(os.drop (k + 1)).map event, ?_⟩
      rw [← List.map_append, List.get_eq_getElem, ← List.take_succ_eq_append_getElem hk',
        List.take_append_drop]

end Sweep

end Tape

namespace Recording

/-- A tangent sweep leaves all primals of a recording as they are, and so later adjoints too, where it
repeats its range. It does so on every range if identifiers are never reused, and always from the
beginning to the end. -/
theorem tangentSweep_keeps_primals [LawfulCells F] (policy : Policy) (c : Catalogue F)
    (hk : c.kernels (c.token .product) = some Product.kernel) (values : Fin n → F)
    (program : List (Instruction F n)) :
    ∃ r : Recording F,
      (fresh policy .primalValues values).run c (program.map Instruction.operation) = .ok r ∧
      (policy = .linear → ∀ start stop, r.tape.Repeats start stop) ∧
      r.tape.Repeats .zero r.tape.position ∧
      ∀ start stop : Position, start.statements ≤ stop.statements →
        stop.statements ≤ r.tape.statementCount → r.tape.Repeats start stop →
        ∀ v : Slots F, ∃ s : Traced F,
          (r.tape.withAdjoints v).tangentSweep c.kernels start stop = .ok s ∧
          (∀ id, s.tape.primal? id = r.tape.primal? id) ∧
          ∀ x : Slots F, ∃ before after : Traced F,
            (r.tape.withAdjoints x).adjointSweepAll c.kernels = .ok before ∧
            (s.tape.withAdjoints x).adjointSweepAll c.kernels = .ok after ∧
            ∀ id, after.tape.gradient id = before.tape.gradient id := by
  obtain ⟨σ, hrun, hσ, hserved, r, hr, h⟩ :=
    fresh_run c policy .primalValues values program fun i _ => i.served hk
  have hpolicy : r.tape.issuer.policy = policy := (run_grows hr).policy_eq
  have hp : r.tape.hasPrimals = true := (run_grows hr).hasPrimals_eq
  have hlinear : r.tape.traits.linear = σ.issuer.policy.isLinear := by
    rw [← h.follows.issuer_eq]
    rfl
  obtain ⟨os, hcovers, hevents⟩ := h.follows.logged.exists_covers hσ.regular
  have hall (hb : r.tape.traits.rollsBack = true) : os.map event = σ.history := by
    rw [hevents]
    exact List.filter_eq_self.mpr fun e _ => e.isLogged_of_rollsBack hb
  refine ⟨r, hr, ?_, hcovers.repeats_whole hσ hall, ?_⟩
  · intro hlinear start stop hb
    simp [Traits.rollsBack, Tape.traits, hpolicy, hlinear, Policy.isLinear] at hb
  · intro start stop hspan he hrepeats v
    obtain ⟨s, hsweep, u, -, hs⟩ := hcovers.tangentSweep_yields hk (h.withAdjoints_carries v)
      (primals_passive _) ⟨hspan, he⟩
    rw [hcovers.primals_forwardAll hσ hevents hlinear hp hspan hrepeats] at hs
    refine ⟨s, hsweep, fun id => ?_, fun x => ?_⟩
    · have hbefore := Tape.carries_self h.follows.lent_eq h.follows.primals_eq
      rw [hs.primal?_eq (primals_passive _), hbefore.primal?_eq (primals_passive _)]
    · have hreopened : (s.tape.withAdjoints x).Carries r.tape x (primals σ.history) :=
        ⟨hs.issuer_eq, hs.log_eq, hs.pending_eq, hs.records_eq, hs.hasPrimals_eq, hs.lent_eq, rfl,
          hs.primals_eq⟩
      obtain ⟨before, hbefore, hb⟩ := h.adjointSweepAll_carries hσ hserved
        (h.withAdjoints_carries x)
      obtain ⟨after, hafter, ha⟩ := h.adjointSweepAll_carries hσ hserved hreopened
      have hopening : (s.tape.withAdjoints x).opening .zero (s.tape.withAdjoints x).position =
          (r.tape.withAdjoints x).opening .zero (r.tape.withAdjoints x).position := by
        have hlog : (s.tape.withAdjoints x).log = r.tape.log := hs.log_eq
        have hissuer : (s.tape.withAdjoints x).issuer = r.tape.issuer := hs.issuer_eq
        rw [Tape.opening, Tape.opening, hissuer, Tape.position, Tape.statementCount, hlog]
        rfl
      refine ⟨before, after, hbefore, hafter, fun id => ?_⟩
      rw [Tape.gradient, Vectors.gradient, ha.adjoints_eq, hopening, Tape.gradient,
        Vectors.gradient, hb.adjoints_eq]

theorem tangentSweep_keeps_primals_squareOf :
    ∃ r : Recording Int,
      (fresh .reuse .primalValues ![3, 0, 0]).run productOnly
        [.input 0, .assign 0 6 [(.variable 0, 2)], .assign 0 30 [(.variable 0, 5)],
          .multiply .byRow 1 1 1 [0] [0] [1]] = .ok r ∧
      ∃ s : Traced Int,
        (r.tape.withAdjoints ⟨1, []⟩).tangentSweep productOnly.kernels ⟨2, 0, 1⟩ r.tape.position =
          .ok s ∧
        (∀ id, s.tape.primal? id = r.tape.primal? id) ∧
        ∀ x : Slots Int, ∃ before after : Traced Int,
          (r.tape.withAdjoints x).adjointSweepAll productOnly.kernels = .ok before ∧
          (s.tape.withAdjoints x).adjointSweepAll productOnly.kernels = .ok after ∧
          ∀ id, after.tape.gradient id = before.tape.gradient id := by
  obtain ⟨r, hr, -, -, hkeeps⟩ := tangentSweep_keeps_primals .reuse productOnly rfl ![3, 0, 0]
    [.input 0, .line (.assign 0 6 [(0, 2)]), .line (.assign 0 30 [(0, 5)]), .multiply squareOf]
  refine ⟨r, hr, hkeeps ⟨2, 0, 1⟩ r.tape.position ?_ ?_ ?_ ⟨1, []⟩⟩
  all_goals
    cases hr
    decide

/-- An input is squared after it was overwritten. A sweep up to the input puts its first value back,
so that the next adjoint sweep gives six instead of ten. -/
theorem not_tangentSweep_keeps_primals_overwritten :
    ∃ (marked r : Recording Int) (s after : Traced Int),
      (fresh .reuse .primalValues ![3, 0, 0]).run productOnly [.input 0] = .ok marked ∧
      marked.run productOnly
        [.assign 0 5 [(.variable 0, 1)], .multiply .byRow 1 1 1 [0] [0] [1]] = .ok r ∧
      r.tape.primal? 1 = some 5 ∧
      r.tape.tangentSweep productOnly.kernels .zero marked.tape.position = .ok s ∧
      s.tape.primal? 1 = some 3 ∧
      (s.tape.withAdjoints ⟨0, [0, 1]⟩).adjointSweepAll productOnly.kernels = .ok after ∧
      after.tape.gradient 1 = 6 :=
  ⟨_, _, _, _, rfl, rfl, rfl, rfl, rfl, rfl, rfl⟩

end Recording

end Autodiff
