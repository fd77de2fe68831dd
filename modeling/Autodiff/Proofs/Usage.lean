import Autodiff.Proofs.Grounding
import Autodiff.Proofs.Leads
import Autodiff.Proofs.Transfers

namespace Autodiff

open Issuer

variable {F : Type} [Scalar F] {n : Nat}

namespace Tape

variable {t t' : Tape F} {x : Variable F} {y : Variable F × Tape F}

theorem pending_assign {value : F} {args : List (Identifier × F)}
    (h : t.assign x value args = .ok y) (hp : t.pending = []) : y.2.pending = [] := by
  rw [assign] at h
  split at h
  · exact (release_sameLog h).pending_eq.trans hp
  · cases h
    rfl

theorem pending_input (h : t.input x = .ok y) (hp : t.pending = []) : y.2.pending = [] := by
  obtain ⟨⟨id, m⟩, -, h⟩ := exists_of_bind_eq_ok h
  cases h
  dsimp only
  split
  · rfl
  · exact hp

theorem pending_output (h : t.output x = .ok y) (hp : t.pending = []) : y.2.pending = [] := by
  rw [output] at h
  split at h
  · cases h
    exact hp
  · obtain ⟨t₁, h₁, h⟩ := exists_of_bind_eq_ok h
    obtain ⟨m, -, h₁⟩ := exists_of_bind_eq_ok h₁
    cases h₁
    cases h
    rfl

theorem pending_writeRecord {kernels : Kernels F} {token : Token} {s : Schema F} {r : s.Record}
    (h : t.writeRecord kernels token s r = .ok t') : t'.pending = [] := by
  obtain ⟨z, hz, h⟩ := exists_of_bind_eq_ok h
  obtain ⟨_, -, hz⟩ := exists_of_bind_eq_ok hz
  obtain ⟨⟨_, fixed, dynamic⟩, -, hz⟩ := exists_of_bind_eq_ok hz
  cases hz
  cases h
  rfl

theorem pending_multiply {kernels : Kernels F} {token : Token} {s : MatrixOrder} {n k m : Nat}
    {a b xs ys : List (Variable F)}
    (h : Product.multiply t kernels token s n k m a b xs = .ok (ys, t')) (hp : t.pending = []) :
    t'.pending = [] := by
  obtain ⟨-, -, h⟩ := exists_of_bind_eq_ok h
  obtain ⟨-, -, h⟩ := exists_of_bind_eq_ok h
  obtain ⟨-, -, h⟩ := exists_of_bind_eq_ok h
  obtain ⟨activity, -, h⟩ := exists_of_bind_eq_ok h
  split at h
  · exact (releaseAll_sameLog h).pending_eq.trans hp
  · obtain ⟨⟨y, sy, t₁⟩, -, h⟩ := exists_of_bind_eq_ok h
    obtain ⟨t₂, h₂, h⟩ := exists_of_bind_eq_ok h
    obtain ⟨t₃, h₃, h⟩ := exists_of_bind_eq_ok h
    have hwritten := pending_writeRecord h₂
    obtain ⟨pool, -, h₃⟩ := exists_of_bind_eq_ok h₃
    cases h₃
    cases h
    exact hwritten

end Tape

theorem Transfer.pending_eq {c : Catalogue F} {x : Transfer F n} {r r' : Recording F}
    (h : x.apply c r = .ok r') (hp : r.tape.pending = []) : r'.tape.pending = [] := by
  cases x with
  | create v =>
    cases h
    exact hp
  | copy u v =>
    cases h
    exact hp
  | externalOutput v =>
    obtain ⟨⟨note, r₁⟩, h₁, h⟩ := exists_of_bind_eq_ok h
    obtain ⟨⟨old, y, t⟩, hy, h₁⟩ := exists_of_bind_eq_ok h₁
    cases h₁
    cases h
    exact (Tape.freshOutput_sameLog hy).pending_eq.trans hp
  | instruct i =>
    obtain ⟨⟨note, r₁⟩, h₁, h⟩ := exists_of_bind_eq_ok h
    cases h
    cases i with
    | line l =>
      cases l with
      | constant v value =>
        cases h₁
        exact hp
      | assign v value args =>
        obtain ⟨y, hy, h₁⟩ := exists_of_bind_eq_ok h₁
        cases h₁
        exact Tape.pending_assign hy hp
      | output v =>
        obtain ⟨y, hy, h₁⟩ := exists_of_bind_eq_ok h₁
        cases h₁
        exact Tape.pending_output hy hp
      | release v =>
        obtain ⟨y, hy, h₁⟩ := exists_of_bind_eq_ok h₁
        cases h₁
        exact (Tape.release_sameLog hy).pending_eq.trans hp
    | input v =>
      obtain ⟨y, hy, h₁⟩ := exists_of_bind_eq_ok h₁
      cases h₁
      exact Tape.pending_input hy hp
    | multiply p =>
      obtain ⟨⟨ys, t⟩, hy, h₁⟩ := exists_of_bind_eq_ok h₁
      cases h₁
      rw [Recording.setAll_tape]
      exact Tape.pending_multiply hy hp

namespace Recording

/-- The recording after its tape went back to an earlier largest identifier. A linear tape issues
the later ones again, so the variables that hold one of them are no longer used. -/
def rewound (r : Recording F) (t : Tape F) (largest : Identifier) : Recording F :=
  match t.issuer.policy with
  | .linear => ⟨t, r.vars.map fun x => if x.identifier ≤ largest then x else x.release⟩
  | .reuse => r.withTape t

inductive Uses (admits : Recording F → Transfer F n → Prop) : Recording F → Prop
  | fresh (policy kind) (values : Fin n → F) : Uses admits (.fresh policy kind values)
  | transfer {r r'} (h : Uses admits r) {c x} (hx : admits r x) (hr : x.apply c r = .ok r') :
      Uses admits r'
  | seed {r} (h : Uses admits r) (v : Slots F) : Uses admits (r.withTape (r.tape.withAdjoints v))
  | tangentSweep {r} {kernels : Kernels F} {start stop s} (h : Uses admits r)
      (hr : r.tape.tangentSweep kernels start stop = .ok s) : Uses admits (r.withTape s.tape)
  | adjointSweep {r} {kernels : Kernels F} {start stop s} (h : Uses admits r)
      (hr : r.tape.adjointSweep kernels start stop = .ok s) : Uses admits (r.withTape s.tape)
  | backTo {r} {kernels : Kernels F} {p s} (h : Uses admits r)
      (hr : r.tape.backTo kernels p = .ok s) : Uses admits (r.rewound s.tape p.largest)
  | clear {r} {kernels : Kernels F} {s} (h : Uses admits r)
      (hr : r.tape.clear kernels = .ok s) : Uses admits (r.rewound s.tape passive)

def Continues (admits : Recording F → Transfer F n → Prop) : Recording F → Recording F → Prop :=
  Relation.ReflTransGen fun r r' => ∃ c x, admits r x ∧ x.apply c r = .ok r'

theorem Continues.step {admits : Recording F → Transfer F n → Prop} {r r' r'' : Recording F}
    (h : r.Continues admits r') {c : Catalogue F} {x : Transfer F n} (hx : admits r' x)
    (hr : x.apply c r' = .ok r'') : r.Continues admits r'' := .tail h ⟨c, x, hx, hr⟩

theorem Continues.mono {admits admits' : Recording F → Transfer F n → Prop} {r r' : Recording F}
    (h : r.Continues admits r') (hadmits : ∀ r x, admits r x → admits' r x) :
    r.Continues admits' r' := by
  refine Relation.ReflTransGen.mono ?_ _ _ h
  rintro r r' ⟨c, x, hx, hr⟩
  exact ⟨c, x, hadmits r x hx, hr⟩

theorem Uses.continues {admits : Recording F → Transfer F n → Prop} {r r' : Recording F}
    (h : r.Uses admits) (hr : r.Continues admits r') : r'.Uses admits := by
  induction hr with
  | refl => exact h
  | tail _ hstep ih =>
    obtain ⟨c, x, hx, happly⟩ := hstep
    exact ih.transfer hx happly

def Abides (I : Issuer → (Fin n → Identifier) → Prop) (r : Recording F) : Prop :=
  ∃ f : Fin n → Variable F, r.vars = List.ofFn f ∧ I r.tape.issuer (Tape.idsOf f)

variable {I : Issuer → (Fin n → Identifier) → Prop} {r r' : Recording F}

theorem Abides.withTape (h : r.Abides I) {t : Tape F} (ht : t.issuer = r.tape.issuer) :
    (r.withTape t).Abides I := by
  obtain ⟨f, hr, hI⟩ := h
  refine ⟨f, hr, ?_⟩
  change I t.issuer _
  rw [ht]
  exact hI

theorem Abides.rewound (h : r.Abides I)
    (hI : ∀ m ids m' largest, I m ids → m.rewind largest = .ok m' → I m' (m.within largest ids))
    {t : Tape F} {largest : Identifier} (ht : r.tape.issuer.rewind largest = .ok t.issuer) :
    (r.rewound t largest).Abides I := by
  obtain ⟨f, hr, hf⟩ := h
  have hpolicy := (policy_rewind ht).1
  have hkept := hI _ _ _ _ hf ht
  cases hp : r.tape.issuer.policy with
  | linear =>
    have hids : r.tape.issuer.within largest (Tape.idsOf f) = Tape.idsOf fun v =>
        if (f v).identifier ≤ largest then f v else (f v).release := by
      funext v
      by_cases hle : (f v).identifier ≤ largest
      · simp [within, Tape.idsOf, hp, hle]
      · simp [within, Tape.idsOf, hp, hle, not_le.mp hle, Variable.release]
    refine ⟨fun v => if (f v).identifier ≤ largest then f v else (f v).release, ?_, ?_⟩
    · rw [Recording.rewound, hpolicy, hp]
      change r.vars.map _ = _
      rw [hr, List.map_ofFn]
      rfl
    · rw [← hids, Recording.rewound, hpolicy, hp]
      exact hkept
  | reuse =>
    rw [within_reuse hp] at hkept
    rw [Recording.rewound, hpolicy, hp]
    exact ⟨f, hr, hkept⟩

theorem Uses.abides {admits : Recording F → Transfer F n → Prop} (h : r.Uses admits)
    (hnew : ∀ policy, I (.new policy) fun _ => passive)
    (htransfer : ∀ c x r r', admits r x → r.Abides I → x.apply c r = .ok r' → r'.Abides I)
    (hrewind : ∀ m ids m' largest, I m ids → m.rewind largest = .ok m' →
      I m' (m.within largest ids)) : r.Abides I := by
  induction h with
  | fresh policy kind values => exact ⟨fun v => .constant (values v), rfl, hnew policy⟩
  | transfer _ hx hr ih => exact htransfer _ _ _ _ hx ih hr
  | seed _ v ih => exact ih.withTape rfl
  | tangentSweep _ hr ih => exact ih.withTape (Tape.tangentSweep_sameRecording hr).issuer_eq
  | adjointSweep _ hr ih => exact ih.withTape (Tape.adjointSweep_sameRecording hr).issuer_eq
  | backTo _ hr ih => exact ih.rewound hrewind (Tape.backTo_keepsUpTo hr).issuer_rewind
  | clear _ hr ih =>
    obtain ⟨s, hs, hr⟩ := exists_of_bind_eq_ok hr
    cases hr
    exact ih.rewound hrewind (Tape.backTo_keepsUpTo hs).issuer_rewind

theorem tape_rewound (r : Recording F) (t : Tape F) (largest : Identifier) :
    (r.rewound t largest).tape = t := by
  rw [Recording.rewound]
  split <;> rfl

theorem run_records {c : Catalogue F} {ops : List (Operation F)} (h : r.run c ops = .ok r') :
    r.tape.Records r'.tape := by
  induction ops generalizing r with
  | nil =>
    cases h
    exact .refl
  | cons op ops ih =>
    obtain ⟨⟨note, r₁⟩, h₁, h⟩ := exists_of_bind_eq_ok h
    exact (apply_records h₁).trans (ih h)

theorem Uses.grounded {admits : Recording F → Transfer F n → Prop} (h : r.Uses admits) :
    r.tape.Grounded := by
  induction h with
  | fresh policy kind values => exact Tape.grounded_new policy kind
  | transfer _ _ hr ih => exact (run_records hr).leads.grounded ih
  | seed _ v ih => exact (Tape.Leads.act (.seed _ v)).grounded ih
  | tangentSweep _ hr ih => exact (Tape.Leads.act (.tangentSweep hr)).grounded ih
  | adjointSweep _ hr ih => exact (Tape.Leads.act (.adjointSweep hr)).grounded ih
  | backTo _ hr ih =>
    rw [tape_rewound]
    exact (Tape.Leads.act (.backTo hr trivial)).grounded ih
  | clear _ hr ih =>
    rw [tape_rewound]
    exact (Tape.Leads.act (.clear hr)).grounded ih

theorem Uses.pending_eq {admits : Recording F → Transfer F n → Prop} (h : r.Uses admits) :
    r.tape.pending = [] := by
  induction h with
  | fresh => rfl
  | transfer _ _ hr ih => exact Transfer.pending_eq hr ih
  | seed _ _ ih => exact ih
  | tangentSweep _ hr ih => exact (Tape.tangentSweep_sameRecording hr).pending_eq.trans ih
  | adjointSweep _ hr ih => exact (Tape.adjointSweep_sameRecording hr).pending_eq.trans ih
  | backTo _ hr =>
    rw [tape_rewound]
    exact (Tape.backTo_keepsUpTo hr).pending_eq
  | clear _ hr =>
    obtain ⟨s, hs, hr⟩ := exists_of_bind_eq_ok hr
    cases hr
    rw [tape_rewound]
    exact (Tape.backTo_keepsUpTo hs).pending_eq

end Recording

end Autodiff
