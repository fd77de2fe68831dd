import Autodiff.Proofs.CopySweeps
import Autodiff.Proofs.Exclusivity
import Autodiff.Proofs.Reservations

namespace Autodiff

open Issuer

variable {F : Type} [Scalar F] {n : Nat}

theorem Issuer.Lends.reserves_replaced {m : Issuer} {ids : Fin n → Identifier} (h : m.Lends ids)
    (v : Fin n) : Yields (m.issue.2.retire (ids v)) fun m' => m'.Reserves m.issue.1 ∧
      m'.policy = m.policy ∧ m.largest ≤ m'.largest := by
  have hx := Guards.issue h m.issue.1
  have hle := hx.guards.held_le m.issue.1
  have hunused := hx.guards.held_unused m.issue.1
  rw [Function.update_self] at hle hunused
  have hissued : m.issue.2.Reserves m.issue.1 :=
    ⟨hx.ne_passive, hunused, hle, hx.guards.unused_linear⟩
  have hyields : Yields (m.issue.2.retire (ids v)) fun _ => True := by
    rw [Issuer.retire]
    split
    case h_1 => exact .ok trivial
    case h_2 =>
      split
      case isTrue => exact .ok trivial
      case isFalse =>
        rw [if_pos ((h.held_le v).trans hx.largest_le)]
        exact .ok trivial
  obtain ⟨m', hm, -⟩ := hyields
  obtain ⟨hreserves, hlargest⟩ := hissued.retire (h.issue_ne v) hm
  exact ⟨m', hm, hreserves, (policy_retire hm).trans hx.policy_eq,
    hx.largest_le.trans hlargest.ge⟩

namespace Tape

variable {t t' : Tape F} {id : Identifier} {x y : Variable F}

theorem appends_append (t : Tape F) {m : Issuer} {out : Identifier} {kind : StatementKind}
    (pending : List (Identifier × F)) (value : F) (hout : out ≠ passive)
    (hkind : ∀ k, kind ≠ .external k)
    (hfresh : t.issuer.policy = .linear → t.issuer.largest < out)
    (hpolicy : m.policy = t.issuer.policy) (hlargest : t.issuer.largest ≤ m.largest) :
    t.Appends ⟨out, kind, pending, t.overwriteOf out value⟩
      (({ t with issuer := m, pending := pending } : Tape F).append out kind value) := by
  refine ⟨hout, hkind, hfresh, rfl, rfl, rfl, hpolicy, hlargest, value, rfl, ?_⟩
  change (t.vectors.setPrimal out value).primals = _
  rw [Vectors.setPrimal, if_neg hout]

theorem output_appends {ids : Fin n → Identifier} {v : Fin n} (h : t.issuer.Lends ids)
    (hx : x.identifier = ids v) (hne : x.identifier ≠ passive) :
    Yields (t.output x) fun y => y.1.value = x.value ∧ x.identifier ≠ y.1.identifier ∧
      (∀ w, ids w ≠ y.1.identifier) ∧ y.2.issuer.Reserves y.1.identifier ∧
      t.Appends ⟨y.1.identifier, .elementary, t.pending ++ [(x.identifier, 1)],
        t.overwriteOf y.1.identifier x.value⟩ y.2 := by
  obtain ⟨m, hm, hreserves, hpolicy, hlargest⟩ := h.reserves_replaced v
  have hfresh := (Guards.issue h t.issuer.issue.1).fresh
  have hactive : Ledger.active [(x.identifier, (1 : F))] = [(x.identifier, 1)] := by
    simp [Ledger.active, hne]
  rw [output_eq hne (hx ▸ hm), addArguments_eq, hactive]
  exact .ok ⟨rfl, hx ▸ h.issue_ne v, h.issue_ne, hreserves,
    appends_append t _ _ hreserves.ne_passive (fun _ hk => by cases hk) hfresh hpolicy hlargest⟩

section Idle

variable (ht : t.Grounded) (h : t.issuer.Reserves id) (hx : x.identifier ≠ id)

theorem rests_withIssuer (t : Tape F) {m : Issuer} (hpolicy : m.policy = t.issuer.policy)
    (hlargest : t.issuer.largest ≤ m.largest) : t.Rests { t with issuer := m } := by
  refine ⟨rfl, rfl, rfl, ?_, hlargest, fun p hp q hq => ?_⟩
  · exact congrArg (Traits.mk t.hasPrimals) (congrArg Policy.isLinear hpolicy)
  · obtain rfl := Option.mem_unique hp hq
    exact ⟨rfl, fun _ _ => rfl⟩

include h hx

theorem release_rests (hy : t.release x = .ok (y, t')) : t.Rests t' := by
  obtain ⟨t₁, h₁, hy⟩ := exists_of_bind_eq_ok hy
  obtain ⟨m, hm, h₁⟩ := exists_of_bind_eq_ok h₁
  cases h₁
  cases hy
  exact rests_withIssuer t (policy_retire hm) (h.retire hx hm).2.ge

include ht

theorem assign_idles {value : F} {args : List (Identifier × F)}
    (hy : t.assign x value args = .ok (y, t')) : t.Idles id t' := by
  cases hpassive : args.all fun a => a.1 == passive with
  | true =>
    rw [assign, if_pos hpassive] at hy
    exact .rest (release_rests (x := ⟨value, x.identifier⟩) h hx hy)
  | false =>
    rw [assign_eq _ _ hpassive, addArguments_eq] at hy
    cases hy
    have hnew := h.settle hx
    have hout := (ne_of_settle ht.unused_ne x.identifier).1
    exact .statement (appends_append t _ _ hout (fun _ hk => by cases hk) hnew.fresh hnew.policy_eq
      hnew.largest_le) hnew.ne.symm

theorem output_idles (hy : t.output x = .ok (y, t')) : t.Idles id t' := by
  by_cases hpassive : x.identifier = passive
  · rw [output, if_pos hpassive] at hy
    cases hy
    exact .rest (rests_withIssuer t rfl (Nat.le_refl _))
  · obtain ⟨m, hm, rfl, rfl⟩ := output_cases hpassive hy
    have hnew := h.issue
    obtain ⟨hreserves, hlargest⟩ := hnew.reserves.retire hx hm
    have hpolicy := (policy_retire hm).trans hnew.policy_eq
    exact .statement (appends_append t _ _ (ne_of_issue ht.unused_ne).1 (fun _ hk => by cases hk)
      hnew.fresh hpolicy (hnew.largest_le.trans hlargest.ge)) hnew.ne.symm

theorem input_idles (hy : t.input x = .ok (y, t')) : t.Idles id t' := by
  obtain ⟨⟨out, m⟩, hm, hy⟩ := exists_of_bind_eq_ok hy
  have hnew := h.exchange hx hm
  obtain ⟨hout, -⟩ := ne_of_exchange ht.unused_ne hm
  have htraits : ({ t with issuer := m } : Tape F).traits = t.traits :=
    congrArg (Traits.mk t.hasPrimals) (congrArg Policy.isLinear hnew.policy_eq)
  cases hy
  dsimp only
  rw [htraits]
  split
  case isTrue =>
    exact .statement (appends_append t t.pending _ hout nofun hnew.fresh hnew.policy_eq
      hnew.largest_le) hnew.ne.symm
  case isFalse hrolls =>
    refine .rest ⟨rfl, rfl, rfl, ?_, hnew.largest_le, fun p hp q hq => ?_⟩
    · exact congrArg₂ Traits.mk (Vectors.hasPrimals_map ..)
        (congrArg Policy.isLinear hnew.policy_eq)
    · obtain ⟨p₀, hp₀, rfl⟩ := Option.mem_map.mp hq
      obtain rfl := Option.mem_unique hp hp₀
      have hhas : t.traits.hasPrimals = true := Option.isSome_of_mem hp
      have hlinear : t.traits.linear = true := by
        simpa [Traits.rollsBack, hhas] using hrolls
      refine ⟨?_, fun i hi => ?_⟩
      · rw [Slots.slot_set, if_neg hout]
      · have hlt := hnew.fresh (policy_of_linear hlinear)
        rw [Slots.slot_set, if_neg (Nat.lt_of_le_of_lt (hi hlinear hhas) hlt).ne']

end Idle

end Tape

namespace Transfer

def Considerate (r : Recording F) (x : Transfer F n) : Prop :=
  r.tape.Unshared (fun v => r.get v) (x.returns fun v => r.get v)

def Plain : Transfer F n → Prop
  | externalOutput _ => False
  | instruct (.multiply _) => False
  | _ => True

end Transfer

namespace Recording

variable {r r' : Recording F} {c : Catalogue F} {x : Transfer F n} {v : Fin n} {y : Variable F}

theorem get_eq_of_vars {f : Fin n → Variable F} (hr : r.vars = List.ofFn f) :
    (fun v : Fin n => r.get v) = f := funext fun v => get_of_vars hr v

theorem forall_get_of_vars {f : Fin n → Variable F} (hr : r.vars = List.ofFn f)
    {P : Variable F → Prop} (hf : ∀ v, P (f v)) (hdefault : P (.constant 0)) (w : Nat) :
    P (r.get w) := by
  by_cases hw : w < n
  · exact (get_of_vars hr ⟨w, hw⟩).symm ▸ hf ⟨w, hw⟩
  · have hlength : r.vars.length ≤ w := by
      rw [hr, List.length_ofFn]
      exact not_lt.mp hw
    rw [get, List.getD_eq_default _ _ hlength]
    exact hdefault

theorem Uses.lends (h : r.Uses (Transfer.Considerate (n := n))) :
    r.Abides (Issuer.Lends (n := n)) := by
  apply h.abides lends_new
  · rintro c x r r' hx ⟨f, hr, hlends⟩ happly
    rw [Transfer.Considerate, get_eq_of_vars hr] at hx
    obtain ⟨g, hmoves⟩ := (x.apply_moves c hr hlends hx).of_eq_ok happly
    exact ⟨g, hmoves.vars_eq, hmoves.hands.lends⟩
  · intro m ids m' largest hlends hm
    exact hlends.rewind hm

theorem Reserves.idles (h : r.Reserves v y) (ht : r.tape.Grounded) (hx : x.Spares v)
    (hplain : x.Plain) (hr : x.apply c r = .ok r') : r.tape.Idles y.identifier r'.tape := by
  have hrefl : r.tape.Rests r.tape := Tape.rests_withIssuer r.tape rfl (Nat.le_refl _)
  have hne {w : Fin n} (hw : v ∉ [w]) : (r.get w).identifier ≠ y.identifier :=
    h.unshared w fun heq => hw (List.mem_singleton.mpr (Fin.ext heq).symm)
  cases x with
  | create w =>
    cases hr
    have hnew := h.issuer.issue
    exact .rest (Tape.rests_withIssuer r.tape hnew.policy_eq hnew.largest_le)
  | copy u w =>
    cases hr
    exact .rest hrefl
  | externalOutput w => exact hplain.elim
  | instruct i =>
    obtain ⟨⟨note, r₁⟩, h₁, hr⟩ := exists_of_bind_eq_ok hr
    cases hr
    cases i with
    | line l =>
      cases l with
      | constant w value =>
        cases h₁
        exact .rest hrefl
      | assign w value args =>
        obtain ⟨⟨z, t⟩, hz, h₁⟩ := exists_of_bind_eq_ok h₁
        cases h₁
        exact Tape.assign_idles ht h.issuer (hne hx) hz
      | output w =>
        obtain ⟨⟨z, t⟩, hz, h₁⟩ := exists_of_bind_eq_ok h₁
        cases h₁
        exact Tape.output_idles ht h.issuer (hne hx) hz
      | release w =>
        obtain ⟨⟨z, t⟩, hz, h₁⟩ := exists_of_bind_eq_ok h₁
        cases h₁
        exact .rest (Tape.release_rests h.issuer (hne hx) hz)
    | input w =>
      obtain ⟨⟨z, t⟩, hz, h₁⟩ := exists_of_bind_eq_ok h₁
      cases h₁
      exact Tape.input_idles ht h.issuer (hne hx) hz
    | multiply p => exact hplain.elim

theorem Reserves.continues (h : r.Reserves v y)
    (hr : r.Continues (fun _ (x : Transfer F n) => x.Spares v) r') : r'.Reserves v y := by
  induction hr with
  | refl => exact h
  | tail _ hstep ih =>
    obtain ⟨c, x, hx, happly⟩ := hstep
    exact ih.transfer hx happly

theorem Reserves.echoes (h : r.Reserves v y) (ht : r.tape.Grounded)
    (hr : r.Continues (fun _ (x : Transfer F n) => x.Spares v ∧ x.Plain) r') :
    r.tape.Echoes y.identifier r'.tape y.identifier := by
  suffices r'.Reserves v y ∧ r'.tape.Grounded ∧
      r.tape.Echoes y.identifier r'.tape y.identifier from this.2.2
  induction hr with
  | refl => exact ⟨h, ht, .refl _ _⟩
  | tail _ hstep ih =>
    obtain ⟨c, x, ⟨hx, hplain⟩, happly⟩ := hstep
    obtain ⟨hreserves, hgrounded, hechoes⟩ := ih
    have hidles := hreserves.idles hgrounded hx hplain happly
    exact ⟨hreserves.transfer hx happly, (run_records happly).leads.grounded hgrounded,
      hechoes.trans (hidles.echoes hgrounded hreserves.issuer.ne_passive)⟩

/-- What holds of an output once it is registered, and while other variables are used: nobody shares
its identifier or will get it, and a seed there stands for one on the old identifier. -/
structure Outputs (r : Recording F) (v : Fin n) (r₁ : Recording F) : Prop where
  value_eq : (r₁.get v).value = (r.get v).value
  others : ∀ w : Fin n, w ≠ v → r₁.get w = r.get w
  unique : ∀ r', r₁.Continues (fun _ (x : Transfer F n) => x.Spares v) r' →
    r'.get v = r₁.get v ∧ (r'.get v).identifier ≠ passive ∧
      (∀ w : Fin n, w ≠ v → (r'.get w).identifier ≠ (r'.get v).identifier) ∧
      (r'.get v).identifier ∉ r'.tape.issuer.unused ∧ (r'.get v).identifier ≠ r'.tape.issue.1
  echoes : ∀ r', r₁.Continues (fun _ (x : Transfer F n) => x.Spares v ∧ x.Plain) r' →
    r.tape.Echoes (r.get v).identifier r'.tape (r'.get v).identifier
  lasting : (r.tape.issuer.policy = .reuse →
      ∀ w : Fin n, w ≠ v → (r.get w).identifier ≠ (r.get v).identifier) →
    ∀ r', r₁.Continues (Transfer.Considerate (n := n)) r' → ∀ w : Fin n,
      (r'.get w).identifier ∉ r'.tape.issuer.unused ∧ (r'.get w).identifier ≠ r'.tape.issue.1

theorem Uses.output_unique (h : r.Uses (Transfer.Considerate (n := n))) {v : Fin n}
    (hv : (r.get v).identifier ≠ passive) (c : Catalogue F) :
    Yields ((Transfer.instruct (.line (.output v)) : Transfer F n).apply c r) fun r₁ =>
      r.Outputs v r₁ := by
  obtain ⟨f, hr, hlends⟩ := h.lends
  have hget (w : Fin n) : r.get w = f w := get_of_vars hr w
  have hid : (r.get v).identifier = Tape.idsOf f v := congrArg Variable.identifier (hget v)
  obtain ⟨⟨z, t⟩, hz, hvalue, hne, hfresh, hreserves, happends⟩ :=
    Tape.output_appends hlends hid hv
  have happly : (Transfer.instruct (.line (.output v)) : Transfer F n).apply c r =
      .ok (r.setResult v (z, t)).2 := by
    change (r.tape.output (r.get v) >>= fun z => pure (r.setResult v z)) >>= _ = _
    rw [hz]
    rfl
  have hvars := vars_setResult hr v z t
  have hself : (r.setResult v (z, t)).2.get v = z := by
    rw [get_of_vars hvars, Function.update_self]
  have hothers (w : Fin n) (hw : w ≠ v) : (r.setResult v (z, t)).2.get w = r.get w := by
    rw [get_of_vars hvars, Function.update_of_ne hw, hget]
  have howns : (r.setResult v (z, t)).2.Reserves v z := by
    refine ⟨hself, fun w hw => ?_, hreserves⟩
    rw [setResult, get_set_of_ne hw]
    exact forall_get_of_vars (r := r) hr (P := fun x => x.identifier ≠ z.identifier) hfresh
      hreserves.ne_passive.symm w
  refine ⟨_, happly, ?_, hothers, fun r' hr' => ?_, fun r' hr' => ?_, fun hshared r' hr' => ?_⟩
  · rw [hself]
    exact hvalue
  · have hlater := howns.continues hr'
    rw [hlater.get_eq, hself]
    refine ⟨rfl, hlater.issuer.ne_passive, fun w hw => ?_, hlater.issuer.notMem_unused,
      hlater.issuer.issue.ne.symm⟩
    exact hlater.unshared w (mt Fin.ext hw)
  · have hgrounded : t.Grounded := (run_records happly).leads.grounded h.grounded
    have hget' : r'.get v = z := (howns.continues (hr'.mono fun _ _ hx => hx.1)).get_eq
    rw [h.pending_eq] at happends
    rw [hget']
    refine (happends.echoes h.grounded hv hreserves.ne_passive fun x hx => ?_).trans
      (howns.echoes hgrounded hr')
    exact Statement.sends_copy hx hreserves.ne_passive hne _
  · have hconsiderate : (Transfer.instruct (.line (.output v)) : Transfer F n).Considerate r := by
      intro hp u hu
      obtain rfl := List.mem_singleton.mp hu
      exact fun _ w hw => hshared hp w hw
    obtain ⟨g, hg, hlends'⟩ := ((h.transfer hconsiderate happly).continues hr').lends
    intro w
    rw [get_of_vars hg]
    exact ⟨hlends'.held_unused w, hlends'.issue_ne w⟩

theorem Uses.output_unique_shared : ∃ r r₁ r₂ : Recording Int,
    r.Uses (Transfer.Considerate (n := 4)) ∧ (r.get 2).identifier = (r.get 1).identifier ∧
      (Transfer.instruct (.line (.output 1)) : Transfer Int 4).apply unregistered r = .ok r₁ ∧
      r.Outputs (1 : Fin 4) r₁ ∧
      (Transfer.create 3 : Transfer Int 4).apply unregistered r₁ = .ok r₂ ∧
      (r₂.get 2).identifier = (r.get 1).identifier ∧
      (r₂.get 2).identifier ≠ r₂.tape.issue.1 ∧ (r₂.get 1).identifier ≠ r₂.tape.issue.1 ∧
      Yields ((r₂.tape.seeded (r₂.get 1).identifier 1).adjointSweepAll unregistered.kernels)
        fun s => s.tape.gradient (r.get 0).identifier = 2 := by
  have fresh : Uses (Transfer.Considerate (n := 4)) _ :=
    .fresh .linear .primalValues ![(3 : Int), 6, 6, 5]
  have registered := fresh.transfer (c := unregistered) (x := .instruct (.input 0)) nofun rfl
  have stored := registered.transfer (c := unregistered)
    (x := .instruct (.line (.assign 1 6 [(0, 2)]))) nofun rfl
  have shared := stored.transfer (c := unregistered) (x := .copy 1 2) nofun rfl
  obtain ⟨r₁, happly, houtputs⟩ := shared.output_unique (v := 1) (by decide) unregistered
  cases happly
  have hspares : (Transfer.create 3 : Transfer Int 4).Spares 1 := by
    change (1 : Fin 4) ∉ [3]
    decide
  obtain ⟨-, -, -, -, hunissued⟩ := houtputs.unique _
    (Continues.step (c := unregistered) .refl hspares rfl)
  have hechoes := houtputs.echoes _
    (Continues.step (c := unregistered) .refl ⟨hspares, trivial⟩ rfl)
  have hlasting := houtputs.lasting nofun _
    (Continues.step (c := unregistered) (x := .create 3) .refl nofun rfl)
  obtain ⟨s, hs, hgradient⟩ := hechoes.gradient_eq unregistered.kernels 1 (Scalar.transmits 1)
    nofun _ rfl
  exact ⟨_, _, _, shared, rfl, rfl, houtputs, rfl, rfl, (hlasting 2).2, hunissued,
    s, hs, hgradient 1⟩

/-- On a tape that reuses identifiers the one that two variables share goes back with the output of
the first, and the next variable gets what the second still holds. -/
theorem not_output_unique_reuse : ∃ r r₁ r₂ : Recording Int,
    r.Uses (Transfer.Considerate (n := 4)) ∧ (r.get 1).identifier ≠ passive ∧
      (r.get 2).identifier = (r.get 1).identifier ∧
      (Transfer.instruct (.line (.output 1)) : Transfer Int 4).apply unregistered r = .ok r₁ ∧
      (r₁.get 2).identifier ∈ r₁.tape.issuer.unused ∧
      (Transfer.instruct (.input 3) : Transfer Int 4).apply unregistered r₁ = .ok r₂ ∧
      (r₂.get 3).identifier = (r₂.get 2).identifier := by
  have fresh : Uses (Transfer.Considerate (n := 4)) _ :=
    .fresh .reuse .jacobian ![(3 : Int), 6, 6, 5]
  have registered := fresh.transfer (c := unregistered) (x := .instruct (.input 0))
    (fun _ v hv => List.mem_singleton.mp hv ▸ sole_of_passive rfl) rfl
  have stored := registered.transfer (c := unregistered)
    (x := .instruct (.line (.assign 1 6 [(0, 2)]))) (fun _ v hv => absurd hv List.not_mem_nil) rfl
  have shared := stored.transfer (c := unregistered) (x := .copy 1 2)
    (fun _ v hv => absurd hv List.not_mem_nil) rfl
  exact ⟨_, _, _, shared, by decide, rfl, rfl, by decide, rfl, rfl⟩

end Recording

end Autodiff
