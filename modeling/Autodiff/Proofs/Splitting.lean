import Autodiff.Proofs.Decomposition
import Autodiff.Proofs.Growth
import Autodiff.Proofs.Moves
import Autodiff.Proofs.RangeSweeps

namespace Autodiff

open History Occurrence

variable {F : Type} [Scalar F] {n : Nat}

theorem slice_append {α : Type} (xs : List α) {start middle stop : Nat} (hs : start ≤ middle)
    (he : middle ≤ stop) :
    (xs.take middle).drop start ++ (xs.take stop).drop middle = (xs.take stop).drop start := by
  have hinitial : (xs.take stop).take middle = xs.take middle := by
    rw [List.take_take, Nat.min_eq_left he]
  have hdrop : (xs.take stop).drop start = ((xs.take stop).drop start).take (middle - start) ++
      ((xs.take stop).drop start).drop (middle - start) := (List.take_append_drop ..).symm
  rw [hdrop, List.drop_drop, Nat.add_sub_cancel' hs, ← hinitial, List.drop_take]

namespace Tape

variable {t base : Tape F} {v : Slots F} {q : Identifier → F}

theorem Carries.primal?_eq (h : t.Carries base v q) (hq : q passive = 0) (id : Identifier) :
    t.primal? id = if base.hasPrimals then some (q id) else none := by
  rw [primal?, ← h.hasPrimals_eq, hasPrimals, Vectors.hasPrimals]
  cases hp : t.vectors.primals with
  | none => rfl
  | some p =>
    have hslot := h.primals_eq p hp
    have hget : p.get id = q id := by
      rw [Slots.get_eq_slot (by rw [hslot, hq]), hslot]
    simp [hget]

section Split

variable [LawfulCells F] {kernels : Kernels F} {token : Token} {os : List (Occurrence F)}
  (start middle stop : Position) (hk : kernels token = some Product.kernel)
  (hcovers : base.Covers token base.log os)
  (h : t.Carries base v q) (hv : v.slot passive = 0) (hq : q passive = 0)
  (hs : start.statements ≤ middle.statements) (hm : middle.statements ≤ stop.statements)
  (he : stop.statements ≤ base.statementCount)
include hk hcovers h hv hq hs hm he

theorem Covers.tangentSweep_split :
    Yields (t.tangentSweep kernels start stop) fun whole =>
      Yields (t.tangentSweep kernels start middle) fun left =>
        Yields (left.tape.tangentSweep kernels middle stop) fun right =>
          ∀ id, right.tape.gradient id = whole.tape.gradient id ∧
            right.tape.primal? id = whole.tape.primal? id := by
  refine (hcovers.tangentSweep_yields hk h hq ⟨hs.trans hm, he⟩).mono ?_
  rintro whole ⟨u, hu, hwhole⟩
  refine (hcovers.tangentSweep_yields hk h hq ⟨hs, hm.trans he⟩).mono ?_
  rintro left ⟨u₁, hu₁, hleft⟩
  have hq₁ : (forwardAll base.traits ((os.take middle.statements).drop start.statements)
      ⟨u₁, q⟩).primals passive = 0 := (primals_forwardAll_passive _).trans hq
  refine (hcovers.tangentSweep_yields hk hleft hq₁ ⟨hm, he⟩).mono ?_
  rintro right ⟨u₂, hu₂, hright⟩
  rw [← slice_append os hs hm, forwardAll_append] at hwhole
  have hregular (i j : Nat) : ∀ o ∈ (os.take j).drop i,
      o.event.Regular ∧ ∀ id, o.event.Sees base.traits id → True :=
    fun o ho => ⟨((hcovers.slice i j).exists_statement ho).1, fun _ _ => trivial⟩
  have hfirst := forwardAll_congr base.traits (hregular start.statements
    middle.statements) (.of_slot_eq (p := q) (q := q) (hu₁.trans hu.symm)
    ((congrFun hu₁ passive).trans hv) fun _ _ => rfl)
  have hboth := forwardAll_congr base.traits (hregular middle.statements
    stop.statements) (hfirst.reopen hu₂)
  intro id
  constructor
  · rw [hright.gradient_eq hboth.slot_passive,
      hwhole.gradient_eq ((congrFun hboth.slot_eq passive).symm.trans hboth.slot_passive),
      hboth.slot_eq]
  · rw [hright.primal?_eq ((primals_forwardAll_passive _).trans hq₁),
      hwhole.primal?_eq ((primals_forwardAll_passive _).trans
        ((primals_forwardAll_passive _).trans hq)), hboth.primals_eq id trivial]

theorem Covers.adjointSweep_split
    (hfree : base.LeavesFactors (base.range start middle) (base.range middle stop)) :
    Yields (t.adjointSweep kernels start stop) fun whole =>
      Yields (t.adjointSweep kernels middle stop) fun right =>
        Yields (right.tape.adjointSweep kernels start middle) fun left =>
          ∀ id, left.tape.gradient id = whole.tape.gradient id := by
  refine (hcovers.adjointSweep_yields hk h hq ⟨hs.trans hm, he⟩).mono ?_
  rintro whole ⟨u, hu, hwhole⟩
  refine (hcovers.adjointSweep_yields hk h hq ⟨hm, he⟩).mono ?_
  rintro right ⟨u₁, hu₁, hright⟩
  refine (hcovers.adjointSweep_yields hk hright hq ⟨hs, hm.trans he⟩).mono ?_
  rintro left ⟨u₂, hu₂, hleft⟩
  rw [← slice_append os hs hm, reverseAll_append] at hwhole
  have hearlier := hcovers.slice start.statements middle.statements
  have hlater := hcovers.slice middle.statements stop.statements
  have hright := reverseAll_congr (S := fun _ => True) base.traits
    (fun o ho => ⟨(hlater.exists_statement ho).1, fun _ _ => trivial⟩)
    (.of_slot_eq (p := q) (q := q) (hu₁.trans hu.symm) ((congrFun hu₁ passive).trans hv)
      fun _ _ => rfl)
  -- Below the split the whole sweep has rolled back only primals that no record reads.
  have hbelow : SweepState.Agree
      (fun id => ∃ o ∈ (os.take middle.statements).drop start.statements,
        o.event.Sees base.traits id) ⟨u₂, q⟩
      (reverseAll base.traits ((os.take stop.statements).drop middle.statements) ⟨u, q⟩) := by
    refine .of_slot_eq (hu₂.trans hright.slot_eq)
      ((congrFun hu₂ passive).trans hright.slot_passive) ?_
    rintro id ⟨o, ho, hid⟩
    symm
    apply primals_reverseAll_of_notMem
    intro hb o' ho'
    exact hearlier.notMem_writes hlater hfree ho ho' hid.2 hb
  have hleft' := reverseAll_congr base.traits
    (fun o ho => ⟨(hearlier.exists_statement ho).1, fun id hid => ⟨o, ho, hid⟩⟩) hbelow
  intro id
  rw [hleft.gradient_eq hleft'.slot_passive,
    hwhole.gradient_eq ((congrFun hleft'.slot_eq passive).symm.trans hleft'.slot_passive),
    hleft'.slot_eq]

end Split

end Tape

namespace Recording

/-- Three positions are taken while a program is recorded. From any derivatives, a sweep between the
outer two gives what the sweeps from and to the middle one give together. In a reverse sweep, where
primals are rolled back, nothing may overwrite after the middle what a record before it reads. -/
theorem sweeps_split [LawfulCells F] (policy : Policy) (kind : TapeKind) (c : Catalogue F)
    (hk : c.kernels (c.token .product) = some Product.kernel) (values : Fin n → F)
    (first second third rest : List (Instruction F n)) :
    ∃ r₁ r₂ r₃ r : Recording F,
      (fresh policy kind values).run c (first.map Instruction.operation) = .ok r₁ ∧
      r₁.run c (second.map Instruction.operation) = .ok r₂ ∧
      r₂.run c (third.map Instruction.operation) = .ok r₃ ∧
      r₃.run c (rest.map Instruction.operation) = .ok r ∧
      ∀ x : Slots F, x.slot passive = 0 →
        (∃ whole left right : Traced F,
          (r.tape.withAdjoints x).tangentSweep c.kernels r₁.tape.position r₃.tape.position =
            .ok whole ∧
          (r.tape.withAdjoints x).tangentSweep c.kernels r₁.tape.position r₂.tape.position =
            .ok left ∧
          left.tape.tangentSweep c.kernels r₂.tape.position r₃.tape.position = .ok right ∧
          ∀ id, right.tape.gradient id = whole.tape.gradient id ∧
            right.tape.primal? id = whole.tape.primal? id) ∧
        (r.tape.LeavesFactors (r.tape.range r₁.tape.position r₂.tape.position)
            (r.tape.range r₂.tape.position r₃.tape.position) →
          ∃ whole right left : Traced F,
            (r.tape.withAdjoints x).adjointSweep c.kernels r₁.tape.position r₃.tape.position =
              .ok whole ∧
            (r.tape.withAdjoints x).adjointSweep c.kernels r₂.tape.position r₃.tape.position =
              .ok right ∧
            right.tape.adjointSweep c.kernels r₁.tape.position r₂.tape.position = .ok left ∧
            ∀ id, left.tape.gradient id = whole.tape.gradient id) := by
  have served (is : List (Instruction F n)) : ∀ i ∈ is, i.Served c := fun i _ => i.served hk
  obtain ⟨σ₁, -, hσ₁, hserved₁, r₁, hr₁, h₁⟩ := fresh_run c policy kind values first (served _)
  obtain ⟨σ₂, -, hσ₂, hserved₂, r₂, hr₂, h₂⟩ := h₁.run hσ₁ hserved₁ second (served _)
  obtain ⟨σ₃, -, hσ₃, hserved₃, r₃, hr₃, h₃⟩ := h₂.run hσ₂ hserved₂ third (served _)
  obtain ⟨σ, -, hσ, -, r, hr, h⟩ := h₃.run hσ₃ hserved₃ rest (served _)
  have hs : r₁.tape.statementCount ≤ r₂.tape.statementCount := (run_grows hr₂).log.length_le
  have hm : r₂.tape.statementCount ≤ r₃.tape.statementCount := (run_grows hr₃).log.length_le
  have he : r₃.tape.statementCount ≤ r.tape.statementCount := (run_grows hr).log.length_le
  obtain ⟨os, hcovers, -⟩ := h.follows.logged.exists_covers hσ.regular
  refine ⟨r₁, r₂, r₃, r, hr₁, hr₂, hr₃, hr, fun x hx => ⟨?_, fun hfree => ?_⟩⟩
  · obtain ⟨whole, hwhole, left, hleft, right, hright, hsame⟩ :=
      hcovers.tangentSweep_split r₁.tape.position r₂.tape.position r₃.tape.position hk
        (h.withAdjoints_carries x) hx (primals_passive _) hs hm he
    exact ⟨whole, left, right, hwhole, hleft, hright, hsame⟩
  · obtain ⟨whole, hwhole, right, hright, left, hleft, hsame⟩ :=
      hcovers.adjointSweep_split r₁.tape.position r₂.tape.position r₃.tape.position hk
        (h.withAdjoints_carries x) hx (primals_passive _) hs hm he hfree
    exact ⟨whole, right, left, hwhole, hright, hleft, hsame⟩

section Square

theorem sweeps_split_squareOf :
    ∃ r₁ r₂ r₃ r : Recording Int,
      (fresh .reuse .primalValues ![3, 0, 0]).run productOnly [.input 0] = .ok r₁ ∧
      r₁.run productOnly [.multiply .byRow 1 1 1 [0] [0] [1]] = .ok r₂ ∧
      r₂.run productOnly [.assign 2 4 [(.variable 1, 2)]] = .ok r₃ ∧
      r₃.run productOnly [.assign 0 5 [(.variable 0, 1)]] = .ok r ∧
      ∃ whole right left : Traced Int,
        (r.tape.withAdjoints ⟨0, [0, 0, 1]⟩).adjointSweep productOnly.kernels r₁.tape.position
          r₃.tape.position = .ok whole ∧
        (r.tape.withAdjoints ⟨0, [0, 0, 1]⟩).adjointSweep productOnly.kernels r₂.tape.position
          r₃.tape.position = .ok right ∧
        right.tape.adjointSweep productOnly.kernels r₁.tape.position r₂.tape.position = .ok left ∧
        ∀ id, left.tape.gradient id = whole.tape.gradient id := by
  obtain ⟨r₁, r₂, r₃, r, h₁, h₂, h₃, h, hsplit⟩ := sweeps_split .reuse .primalValues productOnly
    rfl ![3, 0, 0] [.input 0] [.multiply squareOf] [.line (.assign 2 4 [(1, 2)])]
    [.line (.assign 0 5 [(0, 1)])]
  refine ⟨r₁, r₂, r₃, r, h₁, h₂, h₃, h, (hsplit ⟨0, [0, 0, 1]⟩ rfl).2 ?_⟩
  cases h₁
  cases h₂
  cases h₃
  cases h
  decide

/-- An input is squared and then overwritten. Below the overwriting statement the second part of a
split sweep reads the new value, and gives ten instead of six. -/
theorem not_adjointSweep_split_square :
    ∃ r₁ r : Recording Int,
      (fresh .reuse .primalValues ![3, 0, 0]).run productOnly
        [.input 0, .multiply .byRow 1 1 1 [0] [0] [1]] = .ok r₁ ∧
      r₁.run productOnly [.assign 0 5 [(.variable 0, 1)]] = .ok r ∧
      ∃ whole right left : Traced Int,
        (r.tape.withAdjoints ⟨0, [0, 1]⟩).adjointSweep productOnly.kernels .zero r.tape.position =
          .ok whole ∧
        (r.tape.withAdjoints ⟨0, [0, 1]⟩).adjointSweep productOnly.kernels r₁.tape.position
          r.tape.position = .ok right ∧
        right.tape.adjointSweep productOnly.kernels .zero r₁.tape.position = .ok left ∧
        whole.tape.gradient 1 = 6 ∧ left.tape.gradient 1 = 10 :=
  ⟨_, _, rfl, rfl, _, _, _, rfl, rfl, rfl, rfl, rfl⟩

end Square

end Recording

end Autodiff
