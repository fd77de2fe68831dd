import Autodiff.Proofs.Accounting
import Autodiff.Proofs.Custody
import Autodiff.Proofs.ProductTracking

namespace Autodiff

open Issuer

variable {F : Type} [Scalar F] {n : Nat}

namespace Tape

section Single

variable {t : Tape F} {ids : Fin n → Identifier} {v : Fin n} {x : Variable F}

theorem release_hands (h : t.issuer.Lends ids) (hx : x.identifier = ids v)
    (hsole : t.issuer.policy = .reuse → Sole ids v) :
    Yields (t.release x) fun y =>
      t.issuer.Handover ids y.2.issuer (Function.update ids v y.1.identifier) := by
  obtain ⟨m, hm, hover⟩ := Handover.give h hsole
  rw [release_eq (hx ▸ hm)]
  exact .ok hover

theorem freshOutput_hands (h : t.issuer.Lends ids) (hx : x.identifier = ids v)
    (hsole : t.issuer.policy = .reuse → Sole ids v) :
    Yields (t.freshOutput x) fun y =>
      t.issuer.Handover ids y.2.2.issuer (Function.update ids v y.2.1.identifier) := by
  rw [freshOutput, hx]
  exact (Handover.exchange h hsole).bind fun _ hover => .ok hover

theorem input_hands (h : t.issuer.Lends ids) (hx : x.identifier = ids v)
    (hsole : t.issuer.policy = .reuse → Sole ids v) :
    Yields (t.input x) fun y =>
      t.issuer.Handover ids y.2.issuer (Function.update ids v y.1.identifier) := by
  rw [input, hx]
  refine (Handover.exchange h hsole).bind fun y hover => .ok ?_
  split
  case isTrue => exact hover
  case isFalse => exact hover

theorem output_hands (h : t.issuer.Lends ids) (hx : x.identifier = ids v)
    (hsole : t.issuer.policy = .reuse → Sole ids v) :
    Yields (t.output x) fun y =>
      t.issuer.Handover ids y.2.issuer (Function.update ids v y.1.identifier) := by
  by_cases hpassive : x.identifier = passive
  · rw [output, if_pos hpassive]
    refine .ok ?_
    rw [hx, Function.update_eq_self]
    exact .refl h
  · obtain ⟨m, hm, hover⟩ := Handover.replace h hsole
    rw [output_eq hpassive (hx ▸ hm), addArguments_eq]
    exact .ok hover

theorem assign_hands (h : t.issuer.Lends ids) (hx : x.identifier = ids v) (value : F)
    {args : List (Identifier × F)}
    (hsole : t.issuer.policy = .reuse → (args.all fun a => a.1 == passive) = true → Sole ids v) :
    Yields (t.assign x value args) fun y =>
      t.issuer.Handover ids y.2.issuer (Function.update ids v y.1.identifier) := by
  cases hpassive : args.all fun a => a.1 == passive with
  | true =>
    rw [assign, if_pos hpassive]
    have hrelease := release_hands (x := ⟨value, x.identifier⟩) h hx fun hp => hsole hp hpassive
    exact hrelease
  | false =>
    rw [assign_eq _ _ hpassive, addArguments_eq, hx]
    exact .ok (Handover.settle h v)

theorem placeOutput_hands (h : t.issuer.Lends ids) (hx : x.identifier = ids v)
    (hsole : t.issuer.policy = .reuse → Sole ids v) (active : Bool) :
    Yields (t.placeOutput x active) fun y =>
      t.issuer.Handover ids y.2.2.issuer (Function.update ids v y.2.1.identifier) := by
  cases active with
  | true => exact freshOutput_hands h hx hsole
  | false => exact (release_hands h hx hsole).bind fun _ hover => .ok hover

end Single

def idsOf (f : Fin n → Variable F) : Fin n → Identifier := Variable.identifier ∘ f

omit [Scalar F] in
theorem idsOf_update (f : Fin n → Variable F) (v : Fin n) (x : Variable F) :
    idsOf (Function.update f v x) = Function.update (idsOf f) v x.identifier :=
  Function.comp_update ..

structure Renews (t : Tape F) (f : Fin n → Variable F) (vs : List (Fin n)) (t' : Tape F)
    (g : Fin n → Variable F) : Prop where
  kept : ∀ w, w ∉ vs → g w = f w
  hands : t.issuer.Handover (idsOf f) t'.issuer (idsOf g)

def Unshared (t : Tape F) (f : Fin n → Variable F) (vs : List (Fin n)) : Prop :=
  t.issuer.policy = .reuse → ∀ v ∈ vs, Sole (idsOf f) v

namespace Renews

variable {t t' t'' : Tape F} {f g g' : Fin n → Variable F} {vs us : List (Fin n)} {v : Fin n}
  {x : Variable F}

theorem refl (h : t.issuer.Lends (idsOf f)) (vs : List (Fin n)) : t.Renews f vs t f :=
  ⟨fun _ _ => rfl, .refl h⟩

theorem trans (h : t.Renews f vs t' g) (h' : t'.Renews g vs t'' g') : t.Renews f vs t'' g' :=
  ⟨fun w hw => (h'.kept w hw).trans (h.kept w hw), h.hands.trans h'.hands⟩

theorem mono (h : t.Renews f vs t' g) (hsub : ∀ v ∈ vs, v ∈ us) : t.Renews f us t' g :=
  ⟨fun w hw => h.kept w (mt (hsub w) hw), h.hands⟩

theorem update (hv : v ∈ vs)
    (h : t.issuer.Handover (idsOf f) t'.issuer (Function.update (idsOf f) v x.identifier)) :
    t.Renews f vs t' (Function.update f v x) := by
  rw [← idsOf_update] at h
  refine ⟨fun w hw => Function.update_of_ne ?_ .., h⟩
  rintro rfl
  exact hw hv

theorem unshared (h : t.Renews f vs t' g) (hf : t.Unshared f us) : t'.Unshared g us := by
  intro hp v hv
  rw [h.hands.policy_eq] at hp
  exact h.hands.sole (hf hp v hv)

end Renews

variable {t : Tape F} {f : Fin n → Variable F} {vs : List (Fin n)}

theorem placeOutputs_renews (hnodup : vs.Nodup) {a : Staged F} {places : List (Nat × Bool)}
    (hvalid : ∀ x ∈ places, x.1 < vs.length) (h : t.issuer.Lends (idsOf f))
    (hsole : t.Unshared f vs) :
    Yields (t.placeOutputs (vs.map f) a places) fun x =>
      ∃ g, x.1 = vs.map g ∧ t.Renews f vs x.2.2 g := by
  induction places generalizing t f a with
  | nil => exact .ok ⟨f, rfl, .refl h vs⟩
  | cons x places ih =>
    obtain ⟨k, active⟩ := x
    have hlt : k < vs.length := hvalid (k, active) List.mem_cons_self
    have hmem : vs[k] ∈ vs := List.getElem_mem hlt
    rw [placeOutputs, List.getD_eq_getElem _ _ (by simpa using hlt), List.getElem_map]
    apply (placeOutput_hands h rfl (fun hp => hsole hp _ hmem) active).bind
    rintro ⟨old, y, t₁⟩ hover
    have hfirst : t.Renews f vs t₁ (Function.update f vs[k] y) := .update hmem hover
    have hset : (vs.map f).set k y = vs.map (Function.update f vs[k] y) := by
      rw [hnodup.map_update, if_pos hmem, hnodup.idxOf_getElem]
    change Yields (t₁.placeOutputs ((vs.map f).set k y) _ places) _
    rw [hset]
    apply (ih (fun x hx => hvalid x (List.mem_cons_of_mem _ hx)) hfirst.hands.lends
      (hfirst.unshared hsole)).mono
    rintro z ⟨g, hz, hrest⟩
    exact ⟨g, hz, hfirst.trans hrest⟩

theorem releaseAll_renews (hnodup : vs.Nodup) (h : t.issuer.Lends (idsOf f))
    (hsole : t.Unshared f vs) :
    Yields (t.releaseAll (vs.map f)) fun x => ∃ g, x.1 = vs.map g ∧ t.Renews f vs x.2 g := by
  induction vs generalizing t f with
  | nil => exact .ok ⟨f, rfl, .refl h []⟩
  | cons v vs ih =>
    obtain ⟨hv, hvs⟩ := List.nodup_cons.mp hnodup
    rw [List.map_cons, releaseAll]
    apply (release_hands h rfl fun hp => hsole hp v List.mem_cons_self).bind
    rintro ⟨y, t₁⟩ hover
    have hfirst : t.Renews f (v :: vs) t₁ (Function.update f v y) :=
      .update List.mem_cons_self hover
    have hkept : vs.map f = vs.map (Function.update f v y) := by
      rw [hvs.map_update, if_neg hv]
    change Yields (t₁.releaseAll (vs.map f) >>= fun x => _) _
    rw [hkept]
    apply (ih hvs hfirst.hands.lends fun hp w hw =>
      hfirst.unshared hsole hp w (List.mem_cons_of_mem v hw)).bind
    rintro ⟨ys, t₂⟩ ⟨g, hys, hrest⟩
    refine .ok ⟨g, ?_, hfirst.trans (hrest.mono fun w hw => List.mem_cons_of_mem v hw)⟩
    have hgv : g v = y := (hrest.kept v hv).trans (Function.update_self ..)
    rw [List.map_cons, hgv, ← hys]

end Tape

namespace Product

open Tape

variable {t : Tape F} {f : Fin n → Variable F} {p : ProductRef n}

theorem exists_valued (p : ProductRef n) (h : t.issuer.Lends (idsOf f)) :
    ∃ g, valued p.order p.rows p.inner p.cols (p.left.map f) (p.right.map f) (p.results.map f) =
      p.results.map g ∧ t.Renews f p.results t g := by
  let σ : Ledger F n := ⟨t.issuer, f, []⟩
  have hids : idsOf (σ.setValues p.results (σ.call p []).values).vars = idsOf f :=
    (Ledger.setValues_ids σ p.results (σ.call p []).values).1
  refine ⟨_, valued_map σ p, fun w hw => Ledger.setValues_vars_of_notMem hw, ?_⟩
  rw [hids]
  exact .refl h

theorem multiply_renews (kernels : Kernels F) (token : Token) (p : ProductRef n)
    (h : t.issuer.Lends (idsOf f)) (hsole : t.Unshared f p.results) :
    Accounts (multiply t kernels token p.order p.rows p.inner p.cols (p.left.map f)
      (p.right.map f) (p.results.map f)) fun x =>
        ∃ g, x.1 = p.results.map g ∧ t.Renews f p.results x.2 g := by
  have hleft : (p.left.map f).length = p.rows * p.inner := by simp [p.length_left]
  have hright : (p.right.map f).length = p.inner * p.cols := by simp [p.length_right]
  have hresults : (p.results.map f).length = p.rows * p.cols := by simp [p.length_results]
  obtain ⟨f₀, hvalued, hvalues⟩ := exists_valued p h
  have hsole₀ := hvalues.unshared hsole
  cases hactive : (p.left.map f).any Variable.isActive || (p.right.map f).any Variable.isActive with
  | false =>
    rw [multiply_of_passive hleft hright hresults hactive, hvalued]
    apply Accounts.of_yields
    apply (releaseAll_renews p.nodup hvalues.hands.lends hsole₀).mono
    rintro x ⟨g, hx, hrest⟩
    exact ⟨g, hx, hvalues.trans hrest⟩
  | true =>
    obtain ⟨activity, sa, sb, sr, pool, -, -, heq⟩ :=
      multiply_of_active t kernels token p.order hleft hright hresults hactive
    have hvalid : ∀ x ∈ places p.order p.rows p.inner p.cols (p.left.map f) (p.right.map f),
        x.1 < p.results.length := by
      intro x hx
      obtain ⟨ij, hij, rfl⟩ := List.mem_map.mp hx
      obtain ⟨hi, hj⟩ := mem_indexPairs.mp hij
      rw [p.length_results]
      exact p.order.offset_lt hi hj
    rw [heq, hvalued]
    have hplaced : Yields (({ t with pool := pool } : Tape F).placeOutputs (p.results.map f₀) sr _) _ :=
      placeOutputs_renews p.nodup hvalid hvalues.hands.lends hsole₀
    apply (Accounts.of_yields hplaced).bind
    rintro ⟨ys, sr', t₁⟩ ⟨g, hys, hrest⟩
    apply (writeRecord_accounts t₁ kernels token schema _).bind
    intro t₂ h₂
    apply (reclaim_accounts t₂ schema _).bind
    intro t₃ h₃
    refine ⟨g, hys, fun w hw => (hrest.kept w hw).trans (hvalues.kept w hw), ?_⟩
    rw [h₃, h₂]
    exact hvalues.hands.trans hrest.hands

end Product

inductive Transfer (F : Type) (n : Nat)
  | create (v : Fin n)
  | copy (source v : Fin n)
  | externalOutput (v : Fin n)
  | instruct (i : Instruction F n)

def Line.target : Line F n → Fin n
  | constant v _ => v
  | assign v _ _ => v
  | output v => v
  | release v => v

namespace Transfer

def operations (r : Recording F) : Transfer F n → List (Operation F)
  | create v => [.issue, .fromParts v (r.get v).value r.tape.issue.1]
  | copy u v => [.copy u v]
  | externalOutput v => [.externalOutput v]
  | instruct i => [i.operation]

def apply (c : Catalogue F) (r : Recording F) (x : Transfer F n) : Except Fault (Recording F) :=
  r.run c (x.operations r)

def targets : Transfer F n → List (Fin n)
  | create v => [v]
  | copy _ v => [v]
  | externalOutput v => [v]
  | instruct (.line l) => [l.target]
  | instruct (.input v) => [v]
  | instruct (.multiply p) => p.results

def returns (f : Fin n → Variable F) : Transfer F n → List (Fin n)
  | externalOutput v => [v]
  | instruct (.line (.assign v _ args)) =>
    if args.all fun a => (f a.1).identifier == passive then [v] else []
  | instruct (.line (.output v)) => [v]
  | instruct (.line (.release v)) => [v]
  | instruct (.input v) => [v]
  | instruct (.multiply p) => p.results
  | _ => []

def overwrite (ids : Fin n → Identifier) : Transfer F n → Fin n → Identifier
  | create v => Function.update ids v passive
  | copy u v => Function.update ids v (ids u)
  | instruct (.line (.constant v _)) => Function.update ids v passive
  | _ => ids

structure Moves (x : Transfer F n) (r : Recording F) (f : Fin n → Variable F) (r' : Recording F)
    (g : Fin n → Variable F) : Prop where
  vars_eq : r'.vars = List.ofFn g
  kept : ∀ w, w ∉ x.targets → g w = f w
  hands : r.tape.issuer.Handover (x.overwrite (Tape.idsOf f)) r'.tape.issuer (Tape.idsOf g)

open Tape

variable {x : Transfer F n} {r : Recording F} {f : Fin n → Variable F} {v : Fin n}

theorem Moves.setResult (hr : r.vars = List.ofFn f) (hv : v ∈ x.targets)
    (hx : x.overwrite (idsOf f) = idsOf f) {y : Variable F × Tape F}
    (h : r.tape.issuer.Handover (idsOf f) y.2.issuer
      (Function.update (idsOf f) v y.1.identifier)) :
    x.Moves r f (r.setResult v y).2 (Function.update f v y.1) := by
  refine ⟨Recording.vars_setResult hr v y.1 y.2, fun w hw => Function.update_of_ne ?_ .., ?_⟩
  · rintro rfl
    exact hw hv
  · rw [hx, idsOf_update]
    exact h

theorem run_single {c : Catalogue F} {op : Operation F} {Q : Recording F → Prop}
    (h : Accounts (r.apply c op) fun y => Q y.2) : Accounts (r.run c [op]) Q :=
  h.bind fun _ hy => hy

theorem run_setResult {c : Catalogue F} {op : Operation F}
    {e : Except Fault (Variable F × Tape F)} (hr : r.vars = List.ofFn f) (hv : v ∈ x.targets)
    (hx : x.overwrite (idsOf f) = idsOf f)
    (hop : r.apply c op = e >>= fun y => pure (r.setResult v y))
    (h : Yields e fun y => r.tape.issuer.Handover (idsOf f) y.2.issuer
      (Function.update (idsOf f) v y.1.identifier)) :
    Accounts (r.run c [op]) fun r' => ∃ g, x.Moves r f r' g := by
  apply run_single
  apply Accounts.of_yields
  rw [hop]
  apply h.bind
  intro y hover
  exact .ok ⟨_, .setResult hr hv hx hover⟩

theorem apply_moves (c : Catalogue F) (x : Transfer F n) (hr : r.vars = List.ofFn f)
    (h : r.tape.issuer.Lends (idsOf f)) (hsole : r.tape.Unshared f (x.returns f)) :
    Accounts (x.apply c r) fun r' => ∃ g, x.Moves r f r' g := by
  have hget (v : Fin n) : r.get v = f v := Recording.get_of_vars hr v
  have hself (v : Fin n) : v ∈ [v] := List.mem_singleton_self v
  cases x with
  | create v =>
    have hover := Handover.take (h.forget v) (Function.update_self v passive (idsOf f))
    rw [Function.update_idem] at hover
    refine ⟨Function.update f v ⟨(r.get v).value, r.tape.issue.1⟩, ?_, ?_, ?_⟩
    · change r.vars.set v _ = _
      rw [hr, set_ofFn]
    · intro w hw
      exact Function.update_of_ne (by simpa [targets] using hw) ..
    · rw [idsOf_update]
      exact hover
  | copy u v =>
    refine ⟨Function.update f v (f u), ?_, ?_, ?_⟩
    · change r.vars.set v (r.get u) = _
      rw [hr, hget, set_ofFn]
    · intro w hw
      exact Function.update_of_ne (by simpa [targets] using hw) ..
    · rw [idsOf_update]
      exact .refl (h.copy u v)
  | externalOutput v =>
    apply run_single
    apply Accounts.of_yields
    change Yields (r.tape.freshOutput (r.get v) >>= fun y => _) _
    rw [hget]
    apply (freshOutput_hands h rfl fun hp => hsole hp v (hself v)).bind
    rintro ⟨old, y, t⟩ hover
    have hmoves : (externalOutput v).Moves r f (r.setResult v (y, t)).2 _ :=
      .setResult hr (hself v) rfl hover
    exact .ok ⟨_, hmoves⟩
  | instruct i =>
    cases i with
    | line l =>
      cases l with
      | constant v value =>
        refine ⟨Function.update f v (.constant value), ?_, ?_, ?_⟩
        · change r.vars.set v _ = _
          rw [hr, set_ofFn]
        · intro w hw
          exact Function.update_of_ne (by simpa [targets, Line.target] using hw) ..
        · rw [idsOf_update]
          exact .refl (h.forget v)
      | assign v value args =>
        apply run_setResult hr (hself v) rfl rfl
        rw [hget, Recording.arguments_of_vars hr]
        apply assign_hands h rfl
        intro hp hall
        rw [List.all_map] at hall
        have hreturns : v ∈ returns f (.instruct (.line (.assign v value args))) := by
          change v ∈ if _ then _ else _
          rw [if_pos]
          · exact hself v
          · exact hall
        exact hsole hp v hreturns
      | output v =>
        apply run_setResult hr (hself v) rfl rfl
        rw [hget]
        exact output_hands h rfl fun hp => hsole hp v (hself v)
      | release v =>
        apply run_setResult hr (hself v) rfl rfl
        rw [hget]
        exact release_hands h rfl fun hp => hsole hp v (hself v)
    | input v =>
      apply run_setResult hr (hself v) rfl rfl
      rw [hget]
      exact input_hands h rfl fun hp => hsole hp v (hself v)
    | multiply p =>
      apply run_single
      change Accounts (Product.multiply r.tape c.kernels (c.token .product) _ _ _ _
        (r.getAll (p.left.map Fin.val)) (r.getAll (p.right.map Fin.val))
        (r.getAll (p.results.map Fin.val)) >>= fun y => _) _
      rw [Recording.getAll_of_vars hr, Recording.getAll_of_vars hr, Recording.getAll_of_vars hr]
      apply (Product.multiply_renews c.kernels (c.token .product) p h hsole).bind
      rintro ⟨ys, t⟩ ⟨g, hys, hrest⟩
      obtain rfl : ys = p.results.map g := hys
      obtain ⟨hvars, htape⟩ := Recording.setAll_eq (r := r.withTape t) p.results hr hrest.kept
      refine ⟨g, hvars, hrest.kept, ?_⟩
      change Handover _ _ ((r.withTape t).setAll _ (p.results.map g)).tape.issuer _
      rw [htape]
      exact hrest.hands

end Transfer

end Autodiff
