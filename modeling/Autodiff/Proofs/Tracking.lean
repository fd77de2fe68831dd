import Autodiff.Proofs.Following

namespace Autodiff

open History

variable {F : Type} [Scalar F] {n : Nat}

theorem set_ofFn {α : Type} (f : Fin n → α) (v : Fin n) (x : α) :
    (List.ofFn f).set v x = List.ofFn (Function.update f v x) := by
  refine List.ext_getElem (by simp) fun k hk hk' => ?_
  rw [List.length_ofFn] at hk'
  rw [List.getElem_set]
  by_cases hv : v.val = k
  · subst hv
    simp
  · have hne : (⟨k, hk'⟩ : Fin n) ≠ v := fun h => hv (congrArg Fin.val h.symm)
    simp [hv, Function.update_of_ne hne]

namespace Recording

def fresh (policy : Policy) (kind : TapeKind) (values : Fin n → F) : Recording F :=
  ⟨.new policy kind, List.ofFn fun v => .constant (values v)⟩

section Variables

variable {r : Recording F} {f : Fin n → Variable F} (hr : r.vars = List.ofFn f)
include hr

theorem get_of_vars (v : Fin n) : r.get v = f v := by
  rw [get, hr, List.getD_eq_getElem _ _ (by simp)]
  simp

theorem getAll_of_vars (vs : List (Fin n)) : r.getAll (vs.map Fin.val) = vs.map f := by
  rw [getAll, List.map_map]
  exact List.map_congr_left fun v _ => get_of_vars hr v

theorem arguments_of_vars (args : List (Fin n × F)) :
    (args.map fun a => ((IdRef.variable a.1.val, a.2) : IdRef × F)).map
      (fun arg => (r.resolve arg.1, arg.2)) = args.map fun a => ((f a.1).identifier, a.2) := by
  rw [List.map_map]
  refine List.map_congr_left fun a _ => ?_
  simp [resolve, get_of_vars hr]

theorem vars_setResult (v : Fin n) (y : Variable F) (t : Tape F) :
    (r.setResult v (y, t)).2.vars = List.ofFn (Function.update f v y) := by
  change r.vars.set v y = _
  rw [hr, set_ofFn]

end Variables

structure Tracks (token : Token) (r : Recording F) (σ : Ledger F n) : Prop where
  vars_eq : r.vars = List.ofFn σ.vars
  follows : r.tape.Follows token σ.issuer σ.history

theorem fresh_tracks (token : Token) (policy : Policy) (kind : TapeKind) (values : Fin n → F) :
    (fresh policy kind values).Tracks token (.new policy values) :=
  ⟨rfl, Tape.new_follows policy kind⟩

namespace Tracks

variable {token : Token} {r : Recording F} {σ σ' : Ledger F n}

theorem get_eq (h : r.Tracks token σ) (v : Fin n) : r.get v = σ.vars v := get_of_vars h.vars_eq v

theorem getAll_eq (h : r.Tracks token σ) (vs : List (Fin n)) :
    r.getAll (vs.map Fin.val) = vs.map σ.vars := getAll_of_vars h.vars_eq vs

theorem arguments_eq (h : r.Tracks token σ) (args : List (Fin n × F)) :
    (args.map fun a => ((IdRef.variable a.1.val, a.2) : IdRef × F)).map
      (fun arg => (r.resolve arg.1, arg.2)) = σ.arguments args := arguments_of_vars h.vars_eq args

theorem setResult (h : r.Tracks token σ) {t : Tape F} {m : Issuer} (v : Fin n) (y : Variable F)
    (ht : t.Follows token m σ.history) :
    (r.setResult v (y, t)).2.Tracks token (σ.put m v y) :=
  ⟨vars_setResult h.vars_eq v y t, ht⟩

theorem setResult_log (h : r.Tracks token σ) {t : Tape F} {m : Issuer} (v : Fin n)
    (y : Variable F) {e : Event F} (ht : t.Follows token m (σ.history ++ [e])) :
    (r.setResult v (y, t)).2.Tracks token ((σ.put m v y).log e) :=
  ⟨vars_setResult h.vars_eq v y t, ht⟩

theorem release (h : r.Tracks token σ) {v : Fin n} {value : F}
    (hstep : σ.release v value = .ok σ') :
    Yields (r.tape.release ⟨value, (σ.vars v).identifier⟩) fun x =>
      (r.setResult v x).2.Tracks token σ' := by
  obtain ⟨m, hm, hstep⟩ := exists_of_bind_eq_ok hstep
  cases hstep
  have hpolicy := Issuer.policy_retire hm
  rw [Tape.release_eq (by rw [h.follows.issuer_eq]; exact hm)]
  exact .ok (h.setResult v _ (h.follows.withIssuer hpolicy))

theorem line (h : r.Tracks token σ) (hσ : σ.Sound) (c : Catalogue F) {l : Line F n}
    (hstep : σ.line l = .ok σ') :
    Yields (r.apply c l.operation) fun x => x.2.Tracks token σ' := by
  cases l with
  | constant v value =>
    cases hstep
    refine .ok ⟨?_, h.follows⟩
    change r.vars.set v _ = _
    rw [h.vars_eq, set_ofFn]
    rfl
  | release v =>
    change Yields (r.tape.release (r.get v) >>= fun x => pure (r.setResult v x)) _
    rw [h.get_eq]
    exact (h.release hstep).bind fun x hx => .ok hx
  | assign v value args =>
    change Yields (r.tape.assign (r.get v) value ((args.map fun a =>
      ((IdRef.variable a.1.val, a.2) : IdRef × F)).map fun arg => (r.resolve arg.1, arg.2)) >>=
      fun x => pure (r.setResult v x)) _
    rw [h.get_eq, h.arguments_eq]
    rw [Ledger.line] at hstep
    by_cases hpassive : (σ.arguments args).all fun a => a.1 == passive
    · rw [if_pos hpassive] at hstep
      rw [Tape.assign, if_pos hpassive]
      exact (h.release hstep).bind fun x hx => .ok hx
    · rw [if_neg hpassive] at hstep
      cases hstep
      have hx := hσ.guards.settle v
      have hf := (h.follows.withIssuer hx.policy_eq).elementary hx.ne_passive value
        (σ.arguments args)
      rw [Tape.assign_eq _ _ (by simpa using hpassive), h.follows.issuer_eq]
      exact .ok (h.setResult_log v _ hf)
  | output v =>
    change Yields (r.tape.output (r.get v) >>= fun x => pure (r.setResult v x)) _
    rw [h.get_eq]
    rw [Ledger.line] at hstep
    by_cases hpassive : σ.ids v = passive
    · rw [if_pos hpassive] at hstep
      cases hstep
      rw [Tape.output, if_pos (show (σ.vars v).identifier = passive from hpassive)]
      have hset := h.setResult v (σ.vars v) (m := σ.issuer) h.follows
      rw [Ledger.put, Function.update_eq_self] at hset
      exact .ok hset
    · rw [if_neg hpassive] at hstep
      obtain ⟨m, hm : σ.issuer.issue.2.retire (σ.ids v) = .ok m, hstep⟩ :=
        exists_of_bind_eq_ok hstep
      cases hstep
      obtain ⟨m', hm', hx⟩ := hσ.guards.replace v
      obtain rfl : m = m' := Except.ok.inj (hm.symm.trans hm')
      have hactive : Ledger.active [(σ.ids v, (1 : F))] = [(σ.ids v, 1)] := by
        simp [Ledger.active, hpassive]
      have hf := (h.follows.withIssuer hx.policy_eq).elementary hx.ne_passive (σ.vars v).value
        [(σ.ids v, 1)]
      rw [hactive] at hf
      rw [Tape.output_eq hpassive (by rw [h.follows.issuer_eq]; exact hm), h.follows.issuer_eq]
      exact .ok (h.setResult_log v _ hf)

theorem input (h : r.Tracks token σ) (hσ : σ.Sound) (c : Catalogue F) {v : Fin n}
    (hstep : σ.step (.input v) = .ok σ') :
    Yields (r.apply c (.input v)) fun x => x.2.Tracks token σ' := by
  obtain ⟨x, hok, hx⟩ := hσ.guards.exchange v
  have hrenew : σ.renew v = .ok (σ.put x.2 v ⟨(σ.vars v).value, x.1⟩) := by
    rw [Ledger.renew, hok]
    rfl
  rw [Ledger.step, hrenew] at hstep
  cases hstep
  have hf := (h.follows.withIssuer hx.policy_eq).input hx.ne_passive (σ.vars v).value
  have hid : (σ.put x.2 v ⟨(σ.vars v).value, x.1⟩).ids v = x.1 := by
    rw [Ledger.ids_put, Function.update_self]
  change Yields (r.tape.input (r.get v) >>= fun x => pure (r.setResult v x)) _
  rw [h.get_eq, Tape.input, h.follows.issuer_eq,
    show σ.issuer.exchange (σ.vars v).identifier = .ok x from hok, hid]
  exact .ok (h.setResult_log v _ hf)

end Tracks

end Recording

end Autodiff
