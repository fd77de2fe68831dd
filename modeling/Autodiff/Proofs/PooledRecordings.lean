import Autodiff.Proofs.Blindness
import Autodiff.Proofs.Calls
import Autodiff.Proofs.PooledSweeps

namespace Autodiff

variable {F : Type} [Scalar F]

def Fault.Agree (f g : Fault) : Prop := g = f ∧ ¬ f.OfPool

def Tape.ResultUpToPool {α : Type} (lent : Nat) (x y : α × Tape F) : Prop :=
  y.1 = x.1 ∧ x.2.UpToPool lent y.2

theorem Coupled.of_avoids {α : Type} {Q : α → Prop} {e : Except Fault α}
    (h : Avoids Fault.OfPool e Q) : Coupled Fault.Agree (fun x y => y = x ∧ Q x) e e := by
  cases e with
  | ok x => exact .ok ⟨rfl, h⟩
  | error fault => exact .error ⟨rfl, h⟩

namespace Issuer

theorem retire_avoids (m : Issuer) (id : Identifier) :
    Autodiff.Avoids Fault.OfPool (m.retire id) fun _ => True := by
  rw [retire]
  split
  · trivial
  · split
    · trivial
    · exact .ite trivial nofun

theorem exchange_avoids (m : Issuer) (id : Identifier) :
    Autodiff.Avoids Fault.OfPool (m.exchange id) fun _ => True :=
  (m.retire_avoids id).bind fun _ _ => trivial

end Issuer

namespace Staged.Alike

variable {a b : Staged F}

omit [Scalar F] in
theorem setOutput (h : a.Alike b) (i : Nat) (x : Variable F) (old : F) :
    (a.setOutput i x old).Alike (b.setOutput i x old) where
  identifiers_eq := congrArg (List.set · i x.identifier) h.identifiers_eq
  values_eq := congrArg (List.set · i x.value) h.values_eq
  gradients_eq := h.gradients_eq
  oldValues_eq := congrArg (List.set · i old) h.oldValues_eq

end Staged.Alike

namespace Schema.Alike

variable {s : Schema F} {r r' : s.Record}

theorem fixedSize_eq (h : s.Alike r r') : s.fixedSize r' = s.fixedSize r := by
  induction s with
  | done => rfl
  | scalar ty next ih =>
    obtain ⟨rest, rfl, h⟩ := h
    exact congrArg (ty.width F + ·) (ih _ h)
  | input n use next ih => exact ih h.2
  | output n next ih => exact ih h.2

theorem dynamicSize_eq (h : s.Alike r r') (traits : Traits) :
    s.dynamicSize traits r' = s.dynamicSize traits r := by
  induction s with
  | done => rfl
  | scalar ty next ih =>
    obtain ⟨rest, rfl, h⟩ := h
    exact ih _ h
  | input n use next ih =>
    rw [dynamicSize, dynamicSize, inputSize, inputSize, h.1.identifiers_eq, ih h.2]
  | output n next ih => exact congrArg (outputSize traits n + ·) (ih h.2)

theorem write_eq (h : s.Alike r r') (traits : Traits) (fixed dynamic : Writer F) :
    s.write traits r' fixed dynamic = s.write traits r fixed dynamic := by
  induction s generalizing fixed dynamic with
  | done => rfl
  | scalar ty next ih =>
    obtain ⟨rest, rfl, h⟩ := h
    exact bind_congr fun fixed => ih _ h fixed dynamic
  | input n use next ih =>
    rw [write, write, writeInput, writeInput, h.1.identifiers_eq, h.1.values_eq]
    exact bind_congr fun dynamic => ih h.2 fixed dynamic
  | output n next ih =>
    rw [write, write, writeOutput, writeOutput, h.1.identifiers_eq, h.1.oldValues_eq]
    exact bind_congr fun dynamic => ih h.2 fixed dynamic

end Schema.Alike

namespace Tape.UpToPool

variable {t u : Tape F} {lent : Nat}

theorem retire (h : t.UpToPool lent u) (id : Identifier) :
    Coupled Fault.Agree (UpToPool lent) (t.retire id) (u.retire id) := by
  obtain ⟨pool, hpool, rfl⟩ := h.exists_eq
  refine (Coupled.of_avoids (t.issuer.retire_avoids id)).bind ?_
  rintro _ issuer ⟨rfl, -⟩
  exact .ok (h.map (f := fun t => { t with issuer := issuer }) fun _ _ => rfl)

theorem release (h : t.UpToPool lent u) (x : Variable F) :
    Coupled Fault.Agree (ResultUpToPool lent) (t.release x) (u.release x) :=
  (h.retire x.identifier).bind fun _ _ ht => .ok ⟨rfl, ht⟩

theorem freshOutput (h : t.UpToPool lent u) (y : Variable F) :
    Coupled Fault.Agree (fun x z => z.1 = x.1 ∧ ResultUpToPool lent x.2 z.2) (t.freshOutput y)
      (u.freshOutput y) := by
  obtain ⟨pool, hpool, rfl⟩ := h.exists_eq
  refine (Coupled.of_avoids (t.issuer.exchange_avoids y.identifier)).bind ?_
  rintro _ ⟨id, issuer⟩ ⟨rfl, -⟩
  refine .ok ⟨rfl, rfl, ?_⟩
  exact h.map (f := fun t => Tape.withPrimals { t with issuer := issuer }
    (t.vectors.primals.map (·.set id y.value))) fun _ _ => rfl

theorem placeOutput (h : t.UpToPool lent u) (y : Variable F) (active : Bool) :
    Coupled Fault.Agree (fun x z => z.1 = x.1 ∧ ResultUpToPool lent x.2 z.2)
      (t.placeOutput y active) (u.placeOutput y active) := by
  rw [Tape.placeOutput, Tape.placeOutput]
  split
  · exact h.freshOutput y
  · refine (h.release y).bind ?_
    rintro ⟨y, t⟩ ⟨_, u⟩ ⟨rfl, ht⟩
    exact .ok ⟨rfl, rfl, ht⟩

theorem placeOutputs (h : t.UpToPool lent u) (ys : List (Variable F)) {a b : Staged F}
    (hab : a.Alike b) (places : List (Nat × Bool)) :
    Coupled Fault.Agree
      (fun x z => z.1 = x.1 ∧ x.2.1.Alike z.2.1 ∧ x.2.2.UpToPool lent z.2.2)
      (t.placeOutputs ys a places) (u.placeOutputs ys b places) := by
  induction places generalizing t u ys a b with
  | nil => exact .ok ⟨rfl, hab, h⟩
  | cons place places ih =>
    obtain ⟨i, active⟩ := place
    refine (h.placeOutput (ys.getD i (.constant 0)) active).bind ?_
    rintro ⟨old, y, t⟩ ⟨_, _, u⟩ ⟨rfl, rfl, ht⟩
    exact ih ht (ys.set i _) (hab.setOutput i _ _)

theorem releaseAll (h : t.UpToPool lent u) (ys : List (Variable F)) :
    Coupled Fault.Agree (ResultUpToPool lent) (t.releaseAll ys) (u.releaseAll ys) := by
  induction ys generalizing t u with
  | nil => exact .ok ⟨rfl, h⟩
  | cons y ys ih =>
    refine (h.release y).bind ?_
    rintro ⟨y, t⟩ ⟨_, u⟩ ⟨rfl, ht⟩
    refine (ih ht).bind ?_
    rintro ⟨ys, t⟩ ⟨_, u⟩ ⟨rfl, ht⟩
    exact .ok ⟨rfl, ht⟩

theorem addArguments (h : t.UpToPool lent u) (args : List (Identifier × F)) :
    (t.addArguments args).UpToPool lent (u.addArguments args) := by
  refine h.map (f := fun t => t.addArguments args) fun t pool => ?_
  dsimp only
  rw [addArguments_eq, addArguments_eq]
  rfl

theorem addArgument (h : t.UpToPool lent u) (id : Identifier) (weight : F) :
    (t.addArgument id weight).UpToPool lent (u.addArgument id weight) := by
  refine h.map (f := fun t => t.addArgument id weight) fun t pool => ?_
  dsimp only
  rw [Tape.addArgument, Tape.addArgument]
  split <;> rfl

theorem issue (h : t.UpToPool lent u) : ResultUpToPool lent t.issue u.issue := by
  obtain ⟨pool, hpool, rfl⟩ := h.exists_eq
  exact ⟨rfl, h.map (f := fun t => t.issue.2) fun _ _ => rfl⟩

theorem closeStatement (h : t.UpToPool lent u) (lhs : Identifier) (value : F) :
    ResultUpToPool lent (t.closeStatement lhs value) (u.closeStatement lhs value) := by
  obtain ⟨pool, hpool, rfl⟩ := h.exists_eq
  exact ⟨rfl, h.map (f := fun t => (t.closeStatement lhs value).2) fun _ _ => rfl⟩

theorem assign (h : t.UpToPool lent u) (lhs : Variable F) (value : F)
    (args : List (Identifier × F)) :
    Coupled Fault.Agree (ResultUpToPool lent) (t.assign lhs value args)
      (u.assign lhs value args) := by
  rw [Tape.assign, Tape.assign]
  split
  · exact h.release _
  · obtain ⟨hid, ht⟩ := (h.addArguments args).closeStatement lhs.identifier value
    exact .ok ⟨congrArg (Variable.mk value) hid, ht⟩

theorem input (h : t.UpToPool lent u) (x : Variable F) :
    Coupled Fault.Agree (ResultUpToPool lent) (t.input x) (u.input x) := by
  obtain ⟨pool, hpool, rfl⟩ := h.exists_eq
  refine (Coupled.of_avoids (t.issuer.exchange_avoids x.identifier)).bind ?_
  rintro _ ⟨id, issuer⟩ ⟨rfl, -⟩
  refine .ok ⟨rfl, ?_⟩
  have hissuer := h.map (f := fun t => { t with issuer := issuer }) fun _ _ => rfl
  refine hissuer.map (f := fun t => if t.traits.rollsBack then t.append id .input x.value
    else t.withPrimals (t.vectors.primals.map (·.set id x.value))) fun t pool => ?_
  dsimp only
  rw [show (t.withPool pool).traits = t.traits from rfl]
  split <;> rfl

theorem output (h : t.UpToPool lent u) (y : Variable F) :
    Coupled Fault.Agree (ResultUpToPool lent) (t.output y) (u.output y) := by
  rw [Tape.output, Tape.output]
  split
  · exact .ok ⟨rfl, h⟩
  · obtain ⟨hid, ht⟩ := (h.addArgument y.identifier 1).closeStatement passive y.value
    refine (ht.retire y.identifier).bind fun _ _ ht => .ok ⟨?_, ht⟩
    exact congrArg (Variable.mk y.value) hid

variable {kernels : Kernels F} {token : Token} {s : Schema F} {r r' : s.Record}

theorem addRecord {α : Type} (h : t.UpToPool lent u) (fixedSize dynamicSize : Nat)
    {fill : Writer F → Writer F → Except Fault (α × Writer F × Writer F)}
    (hfill : ∀ fixed dynamic, Avoids Fault.OfPool (fill fixed dynamic) fun _ => True) :
    Coupled Fault.Agree (ResultUpToPool lent)
      (t.addRecord kernels token fixedSize dynamicSize fill)
      (u.addRecord kernels token fixedSize dynamicSize fill) := by
  refine (Coupled.of_avoids (Traced.find_avoids kernels token)).bind fun _ _ _ => ?_
  refine (Coupled.of_avoids (hfill _ _)).bind ?_
  rintro _ ⟨x, fixed, dynamic⟩ ⟨rfl, -⟩
  refine .ok ⟨rfl, ?_⟩
  exact h.map (f := fun t => Tape.append
    { t with records := t.records ++ [⟨token, fixed.cells, dynamic.cells⟩] } passive
    (.external t.records.length) 0) fun _ _ => rfl

theorem writeRecord (h : t.UpToPool lent u) (hr : s.Alike r r') :
    Coupled Fault.Agree (UpToPool lent) (t.writeRecord kernels token s r)
      (u.writeRecord kernels token s r') := by
  have hfatal (cause : Cause) : ¬ Fault.OfPool (.fatal cause) := id
  have htraits : u.traits = t.traits := by
    rw [h.rest_eq]
    rfl
  rw [Tape.writeRecord, Tape.writeRecord, hr.fixedSize_eq, hr.dynamicSize_eq, htraits]
  simp only [hr.write_eq]
  refine (h.addRecord _ _ fun fixed dynamic => ?_).bind fun _ _ hx => .ok hx.2
  exact Schema.fill_avoids hfatal t.traits s r fixed dynamic

theorem stageInputs (h : t.UpToPool lent u) (xs : List (Variable F)) :
    (t.stageInputs xs).1.Alike (u.stageInputs xs).1 ∧
      (t.stageInputs xs).2.UpToPool (lent + 4) (u.stageInputs xs).2 := by
  obtain ⟨pool, hpool, rfl⟩ := h.exists_eq
  exact ⟨⟨rfl, rfl, rfl, rfl⟩, rfl, congrArg (· + 4) h.lent_eq, congrArg (· + 4) hpool⟩

theorem stageOutputs (h : t.UpToPool lent u) (n : Nat) :
    (t.stageOutputs n).1.Alike (u.stageOutputs n).1 ∧
      (t.stageOutputs n).2.UpToPool (lent + 4) (u.stageOutputs n).2 := by
  obtain ⟨pool, hpool, rfl⟩ := h.exists_eq
  exact ⟨⟨rfl, rfl, rfl, rfl⟩, rfl, congrArg (· + 4) h.lent_eq, congrArg (· + 4) hpool⟩

theorem stageAll (h : t.UpToPool lent u) (xss : List (List (Variable F))) :
    List.Forall₂ Staged.Alike (t.stageAll xss).1 (u.stageAll xss).1 ∧
      (t.stageAll xss).2.UpToPool (lent + 4 * xss.length) (u.stageAll xss).2 := by
  induction xss generalizing t u lent with
  | nil => exact ⟨.nil, h⟩
  | cons xs xss ih =>
    obtain ⟨hone, ht⟩ := h.stageInputs xs
    obtain ⟨hrest, ht⟩ := ih ht
    refine ⟨.cons hone hrest, ?_⟩
    rw [List.length_cons, show lent + 4 * (xss.length + 1) = lent + 4 + 4 * xss.length by omega]
    exact ht

theorem reclaim (h : t.UpToPool (4 * (s.arrays r).length) u) (hr : s.Alike r r') :
    Coupled Fault.Agree (UpToPool 0) (t.reclaim s r) (u.reclaim s r') := by
  obtain ⟨pool, hpool, rfl⟩ := h.exists_eq
  have hyields {t : Tape F} {r : s.Record} (ht : t.pool.lent = 4 * (s.arrays r).length) :=
    Tape.reclaim_yields s r (show t.pool.lent = 4 * (s.arrays r).length + 0 from ht)
  obtain ⟨t', ht, pool₁, hpool₁, rfl⟩ := hyields h.lent_eq
  rw [← hr.sameScalars.length_arrays] at hpool
  obtain ⟨u', hu, pool₂, hpool₂, rfl⟩ := hyields (t := t.withPool pool) hpool
  rw [ht, hu]
  exact .ok ⟨rfl, hpool₁, hpool₂⟩

theorem finishCall {α : Type} (h : t.UpToPool (4 * (s.arrays r).length) u) (hr : s.Alike r r')
    (x : α) :
    Coupled Fault.Agree (ResultUpToPool 0)
      (t.writeRecord kernels token s r >>= fun t => t.reclaim s r >>= fun t => pure (x, t))
      (u.writeRecord kernels token s r' >>= fun u => u.reclaim s r' >>= fun u => pure (x, u)) :=
  (h.writeRecord hr).bind fun _ _ ht => (ht.reclaim hr).bind fun _ _ ht => .ok ⟨rfl, ht⟩

end Tape.UpToPool

theorem ActivityMask.setFrom_avoids (a : ActivityMask) (arg : Nat) (bs : List Bool) :
    Avoids Fault.OfPool (a.setFrom arg bs) fun _ => True := by
  induction bs generalizing a arg with
  | nil => trivial
  | cons b bs ih =>
    have hset : Avoids Fault.OfPool (a.set arg b) fun _ => True := by
      rw [ActivityMask.set]
      split
      · split <;> trivial
      · exact id
    exact hset.bind fun a _ => ih a (arg + 1)

namespace SquareSum

omit [Scalar F] in
theorem forall₂_zip (hs : List (Header F)) {as bs : List (Staged F)}
    (h : List.Forall₂ Staged.Alike as bs) :
    List.Forall₂ (fun x y => x.1 = y.1 ∧ x.2.Alike y.2) (hs.zip as) (hs.zip bs) := by
  induction h generalizing hs with
  | nil =>
    rw [List.zip_nil_right]
    exact .nil
  | cons hab _ ih =>
    cases hs with
    | nil => exact .nil
    | cons header hs => exact .cons ⟨rfl, hab⟩ (ih hs)

omit [Scalar F] in
theorem arrays_joinHeaders (hs : List (Header F)) (next : List (Header F) → Schema F)
    (r : (next hs).Record) :
    (headers hs.length next).arrays (joinHeaders hs next r) = (next hs).arrays r := by
  induction hs generalizing next with
  | nil => rfl
  | cons h hs ih => exact ih (fun hs => next (h :: hs)) r

omit [Scalar F] in
theorem arrays_joinInputs (activity : ActivityMask) (i : Nat) (args : List (Header F × Staged F))
    (s : Schema F) (r : s.Record) :
    (inputs activity i (args.map Prod.fst) s).arrays (joinInputs activity i args s r) =
      args.map Prod.snd ++ s.arrays r := by
  induction args generalizing i with
  | nil => rfl
  | cons arg args ih => exact congrArg (arg.2 :: ·) (ih (i + 1))

omit [Scalar F] in
theorem length_arrays_toRecord (c : Call F) :
    (schema.arrays c.toRecord).length = c.args.length + 1 := by
  have harrays : schema.arrays c.toRecord = c.args.map Prod.snd ++ [c.result] :=
    (arrays_joinHeaders _ _ _).trans (arrays_joinInputs c.activity 0 c.args (.output c.outputs .done)
      (c.result, ()))
  rw [harrays]
  simp

omit [Scalar F] in
theorem alike_joinHeaders (hs : List (Header F)) (next : List (Header F) → Schema F)
    {r r' : (next hs).Record} (h : (next hs).Alike r r') :
    (headers hs.length next).Alike (joinHeaders hs next r) (joinHeaders hs next r') := by
  induction hs generalizing next with
  | nil => exact h
  | cons header hs ih =>
    exact ⟨_, rfl, _, rfl, _, rfl, ih (fun hs => next (header :: hs)) h⟩

omit [Scalar F] in
theorem exists_joinInputs (activity : ActivityMask) (i : Nat) (s : Schema F)
    {args args' : List (Header F × Staged F)}
    (h : List.Forall₂ (fun x y => x.1 = y.1 ∧ x.2.Alike y.2) args args') {r r' : s.Record}
    (hr : s.Alike r r') :
    ∃ q, (⟨args'.map Prod.fst, joinInputs activity i args' s r'⟩ :
        (hs : List (Header F)) × (inputs activity i hs s).Record) = ⟨args.map Prod.fst, q⟩ ∧
      (inputs activity i (args.map Prod.fst) s).Alike (joinInputs activity i args s r) q := by
  induction h generalizing i with
  | nil => exact ⟨r', rfl, hr⟩
  | @cons x y args args' hxy _ ih =>
    obtain ⟨header, a⟩ := x
    obtain ⟨_, b⟩ := y
    obtain ⟨rfl, hab⟩ := hxy
    obtain ⟨q, heq, hq⟩ := ih (i + 1)
    refine ⟨(b, q), ?_, hab, hq⟩
    exact congrArg (fun p : (hs : List (Header F)) × (inputs activity (i + 1) hs s).Record =>
      (⟨header :: p.1, (b, p.2)⟩ : (hs : List (Header F)) × (inputs activity i hs s).Record)) heq

omit [Scalar F] in
theorem Call.Alike.toRecord {c c' : Call F} (h : c.Alike c') :
    schema.Alike c.toRecord c'.toRecord := by
  obtain ⟨_, args, _, result⟩ := c
  obtain ⟨activity, args', outputs, result'⟩ := c'
  obtain ⟨rfl, rfl, hargs, hresult⟩ := h
  have halike : (Schema.output outputs .done).Alike (result, ()) (result', ()) := ⟨hresult, trivial⟩
  obtain ⟨q, heq, hq⟩ := exists_joinInputs activity 0 _ hargs halike
  have hrecord := congrArg (fun p : (hs : List (Header F)) ×
      (inputs activity 0 hs (.output outputs .done)).Record =>
    (⟨activity, outputs, p.1.length, joinHeaders p.1
      (fun hs => inputs activity 0 hs (.output outputs .done)) p.2⟩ : (schema (F := F)).Record)) heq
  have hrecord : Call.toRecord ⟨activity, args', outputs, result'⟩ = _ := hrecord
  rw [hrecord]
  exact ⟨_, rfl, _, rfl, _, rfl, alike_joinHeaders _ _ hq⟩

end SquareSum

section Calls

variable {kernels : Kernels F} {token : Token} {t u : Tape F}

theorem Scaling.scale_coupled (h : t.UpToPool 0 u) (factor : F) (x y : List (Variable F)) :
    Coupled Fault.Agree (Tape.ResultUpToPool 0) (scale t kernels token factor x y)
      (scale u kernels token factor x y) := by
  rw [scale, scale]
  refine (Coupled.of_avoids (ActivityMask.setFrom_avoids _ _ _)).bind ?_
  rintro _ activity ⟨rfl, -⟩
  split
  · exact h.releaseAll _
  · obtain ⟨hx, ht⟩ := h.stageInputs x
    obtain ⟨hy, ht⟩ := ht.stageOutputs
      (y.zipWith (fun y x => { y with value := factor * x.value }) x).length
    refine (ht.placeOutputs _ hy _).bind ?_
    rintro ⟨_, a, t₁⟩ ⟨ys, b, u₁⟩ ⟨rfl, hab, ht⟩
    exact ht.finishCall (s := schema) (r := ⟨activity, x.length, factor, _, a, ()⟩)
      (alike _ _ _ hx hab) ys

theorem SquareSum.sumSquares_coupled (h : t.UpToPool 0 u) (terms : List (Term F))
    (y : List (Variable F)) :
    Coupled Fault.Agree (Tape.ResultUpToPool 0) (sumSquares t kernels token terms y)
      (sumSquares u kernels token terms y) := by
  rw [sumSquares, sumSquares]
  refine (Coupled.of_avoids (ActivityMask.setFrom_avoids _ _ _)).bind ?_
  rintro _ activity ⟨rfl, -⟩
  obtain ⟨hxs, ht⟩ := h.stageAll (terms.map Term.elements)
  obtain ⟨hy, ht⟩ := ht.stageOutputs y.length
  have hargs := forall₂_zip (terms.map Term.header) hxs
  -- Each term has a header and a staged array, and the results are one array more.
  have hlength := (t.stageAll_eq (terms.map Term.elements)).choose_spec.2.2.length_eq
  have hlent {c : Call F} (hc : c.args = (terms.map Term.header).zip
      (t.stageAll (terms.map Term.elements)).1) :
      0 + 4 * (terms.map Term.elements).length + 4 = 4 * (schema.arrays c.toRecord).length := by
    rw [length_arrays_toRecord, hc, List.length_zip, hlength]
    simp
    omega
  change Coupled _ _ (if activity.any then _ else _) (if activity.any then _ else _)
  split
  · refine (ht.placeOutputs _ hy _).bind ?_
    rintro ⟨_, a, t₁⟩ ⟨ys, b, u₁⟩ ⟨rfl, hab, ht⟩
    have hcall : Call.Alike ⟨activity, _, ys.length, a⟩ ⟨activity, _, ys.length, b⟩ :=
      ⟨rfl, rfl, hargs, hab⟩
    dsimp only at ht
    rw [hlent (c := ⟨activity, _, ys.length, a⟩) rfl] at ht
    exact ht.finishCall hcall.toRecord ys
  · refine (ht.releaseAll _).bind ?_
    rintro ⟨_, t₁⟩ ⟨ys, u₁⟩ ⟨rfl, ht⟩
    have hcall : Call.Alike
        ⟨activity, _, ys.length, ((t.stageAll (terms.map Term.elements)).2.stageOutputs y.length).1⟩
        ⟨activity, _, ys.length, ((u.stageAll (terms.map Term.elements)).2.stageOutputs y.length).1⟩ :=
      ⟨rfl, rfl, hargs, hy⟩
    dsimp only at ht
    rw [hlent (c := ⟨activity, _, ys.length, _⟩) rfl] at ht
    exact (ht.reclaim hcall.toRecord).bind fun _ _ ht => .ok ⟨rfl, ht⟩

theorem Product.multiply_coupled (h : t.UpToPool 0 u) (s : MatrixOrder) (n k m : Nat)
    (a b r : List (Variable F)) :
    Coupled Fault.Agree (Tape.ResultUpToPool 0) (multiply t kernels token s n k m a b r)
      (multiply u kernels token s n k m a b r) := by
  have hcheck (operand : Operand) (xs : List (Variable F)) (size : Nat) :
      Avoids Fault.OfPool (checkSize operand xs size) fun _ => True := .ite trivial id
  rw [multiply, multiply]
  refine (Coupled.of_avoids (hcheck _ _ _)).bind fun _ _ _ => ?_
  refine (Coupled.of_avoids (hcheck _ _ _)).bind fun _ _ _ => ?_
  refine (Coupled.of_avoids (hcheck _ _ _)).bind fun _ _ _ => ?_
  refine (Coupled.of_avoids (ActivityMask.setFrom_avoids _ _ _)).bind ?_
  rintro _ activity ⟨rfl, -⟩
  split
  · exact h.releaseAll _
  · obtain ⟨ha, ht⟩ := h.stageInputs a
    obtain ⟨hb, ht⟩ := ht.stageInputs b
    obtain ⟨hr, ht⟩ := ht.stageOutputs (n * m)
    refine (ht.placeOutputs _ hr _).bind ?_
    rintro ⟨_, c, t₁⟩ ⟨ys, d, u₁⟩ ⟨rfl, hcd, ht⟩
    exact ht.finishCall (s := schema) (r := ⟨activity, s.code, n, k, m, _, _, c, ()⟩)
      ⟨_, rfl, _, rfl, _, rfl, _, rfl, _, rfl, ha, hb, hcd, trivial⟩ ys

end Calls

structure Recording.UpToPool (lent : Nat) (r r' : Recording F) : Prop where
  tape : r.tape.UpToPool lent r'.tape
  vars_eq : r'.vars = r.vars

namespace Recording.UpToPool

variable {lent : Nat} {r r' : Recording F}

theorem get_eq (h : r.UpToPool lent r') (v : Nat) : r'.get v = r.get v := by
  rw [get, get, h.vars_eq]

theorem getAll_eq (h : r.UpToPool lent r') (vs : List Nat) : r'.getAll vs = r.getAll vs :=
  List.map_congr_left fun v _ => h.get_eq v

theorem resolve_eq (h : r.UpToPool lent r') (ref : IdRef) : r'.resolve ref = r.resolve ref := by
  cases ref with
  | «variable» v => exact congrArg Variable.identifier (h.get_eq v)
  | identifier id => rfl

theorem withTape (h : r.UpToPool lent r') {lent' : Nat} {t u : Tape F}
    (ht : t.UpToPool lent' u) : (r.withTape t).UpToPool lent' (r'.withTape u) := ⟨ht, h.vars_eq⟩

theorem set (h : r.UpToPool lent r') (v : Nat) (x : Variable F) : (r.set v x).UpToPool lent (r'.set v x) :=
  ⟨h.tape, congrArg (List.set · v x) h.vars_eq⟩

theorem setAll (h : r.UpToPool lent r') (vs : List Nat) (xs : List (Variable F)) :
    (r.setAll vs xs).UpToPool lent (r'.setAll vs xs) := by
  rw [Recording.setAll, Recording.setAll]
  generalize vs.zip xs = writes
  induction writes generalizing r r' with
  | nil => exact h
  | cons write writes ih => exact ih (h.set write.1 write.2)

theorem setResult (h : r.UpToPool lent r') (v : Nat) {x y : Variable F × Tape F}
    (hxy : Tape.ResultUpToPool lent x y) :
    (r'.setResult v y).1 = (r.setResult v x).1 ∧
      (r.setResult v x).2.UpToPool lent (r'.setResult v y).2 := by
  obtain ⟨y, u⟩ := y
  obtain ⟨rfl, ht⟩ := hxy
  exact ⟨rfl, (h.withTape ht).set v _⟩

theorem setResults (h : r.UpToPool lent r') (vs : List Nat) {xs ys : List (Variable F) × Tape F}
    (hxy : Tape.ResultUpToPool lent xs ys) :
    (r'.setResults vs ys).1 = (r.setResults vs xs).1 ∧
      (r.setResults vs xs).2.UpToPool lent (r'.setResults vs ys).2 := by
  obtain ⟨ys, u⟩ := ys
  obtain ⟨rfl, ht⟩ := hxy
  exact ⟨rfl, (h.withTape ht).setAll vs _⟩

theorem closeStatement (h : r.UpToPool lent r') (lhs : IdRef) (value : F) :
    (r'.closeStatement lhs value).1 = (r.closeStatement lhs value).1 ∧
      (r.closeStatement lhs value).2.UpToPool lent (r'.closeStatement lhs value).2 := by
  rw [Recording.closeStatement, Recording.closeStatement, h.resolve_eq]
  obtain ⟨hid, ht⟩ := h.tape.closeStatement (r.resolve lhs) value
  cases lhs with
  | «variable» v =>
    dsimp only
    rw [hid, h.get_eq]
    exact ⟨rfl, (h.withTape ht).set v _⟩
  | identifier id => exact ⟨congrArg Note.count hid, h.withTape ht⟩

theorem apply (h : r.UpToPool 0 r') (c : Catalogue F) (op : Operation F) :
    Coupled Fault.Agree (fun x y => y.1 = x.1 ∧ x.2.UpToPool 0 y.2) (r.apply c op)
      (r'.apply c op) := by
  have hresult (v : Nat) {e e' : Except Fault (Variable F × Tape F)}
      (he : Coupled Fault.Agree (Tape.ResultUpToPool 0) e e') :
      Coupled Fault.Agree (fun x y => y.1 = x.1 ∧ x.2.UpToPool 0 y.2)
        (e >>= fun x => pure (r.setResult v x)) (e' >>= fun x => pure (r'.setResult v x)) :=
    he.bind fun _ _ hxy => .ok (h.setResult v hxy)
  have hresults (vs : List Nat) {e e' : Except Fault (List (Variable F) × Tape F)}
      (he : Coupled Fault.Agree (Tape.ResultUpToPool 0) e e') :
      Coupled Fault.Agree (fun x y => y.1 = x.1 ∧ x.2.UpToPool 0 y.2)
        (e >>= fun x => pure (r.setResults vs x)) (e' >>= fun x => pure (r'.setResults vs x)) :=
    he.bind fun _ _ hxy => .ok (h.setResults vs hxy)
  cases op with
  | issue =>
    obtain ⟨hid, ht⟩ := h.tape.issue
    exact .ok ⟨congrArg Note.count hid, h.withTape ht⟩
  | release v => exact hresult v (h.get_eq v ▸ h.tape.release (r.get v))
  | constant v value => exact .ok ⟨rfl, h.set v _⟩
  | fromParts v value id => exact .ok ⟨rfl, h.set v _⟩
  | setValue v value => exact .ok ⟨rfl, h.get_eq v ▸ h.set v _⟩
  | copy source v => exact .ok ⟨rfl, h.get_eq source ▸ h.set v _⟩
  | input v => exact hresult v (h.get_eq v ▸ h.tape.input (r.get v))
  | output v => exact hresult v (h.get_eq v ▸ h.tape.output (r.get v))
  | addArgument arg weight =>
    exact .ok ⟨rfl, h.withTape (h.resolve_eq arg ▸ h.tape.addArgument (r.resolve arg) weight)⟩
  | closeStatement lhs value => exact .ok (h.closeStatement lhs value)
  | assign v value args =>
    have hargs : (args.map fun arg => (r'.resolve arg.1, arg.2)) =
        args.map fun arg => (r.resolve arg.1, arg.2) :=
      List.map_congr_left fun arg _ => by rw [h.resolve_eq]
    rw [Recording.apply, Recording.apply, hargs, h.get_eq]
    exact hresult v (h.tape.assign _ _ _)
  | externalOutput v =>
    rw [Recording.apply, Recording.apply, h.get_eq]
    refine (h.tape.freshOutput (r.get v)).bind ?_
    rintro ⟨_, _, t⟩ ⟨old, y, u⟩ ⟨rfl, rfl, ht⟩
    exact .ok ⟨rfl, (h.withTape ht).set v y⟩
  | scale factor x y =>
    rw [Recording.apply, Recording.apply, h.getAll_eq, h.getAll_eq]
    exact hresults y (Scaling.scale_coupled h.tape _ _ _)
  | sumSquares terms y =>
    have hterms : terms.map r'.term = terms.map r.term :=
      List.map_congr_left fun a _ => by rw [term, term, h.getAll_eq]
    rw [Recording.apply, Recording.apply, hterms, h.getAll_eq]
    exact hresults y (SquareSum.sumSquares_coupled h.tape _ _)
  | multiply s n k m a b y =>
    rw [Recording.apply, Recording.apply, h.getAll_eq, h.getAll_eq, h.getAll_eq]
    exact hresults y (Product.multiply_coupled h.tape _ _ _ _ _ _ _)

end Recording.UpToPool

end Autodiff
