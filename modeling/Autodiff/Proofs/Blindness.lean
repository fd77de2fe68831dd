import Autodiff.Proofs.Mirrors
import Autodiff.Proofs.Statelessness

namespace Autodiff

variable {F : Type}

namespace Program

theorem detached_gradients (ids : List Identifier) :
    (gradients (F := F) ids).Detached fun _ => True := by
  induction ids with
  | nil => trivial
  | cons id ids ih => exact ⟨trivial, fun _ => ih.bind fun _ _ => trivial⟩

theorem detached_takeGradients (ids : List Identifier) :
    (takeGradients (F := F) ids).Detached fun _ => True := by
  induction ids with
  | nil => trivial
  | cons id ids ih => exact ⟨trivial, fun _ => ih.bind fun _ _ => trivial⟩

theorem detached_setGradients (ids : List Identifier) (gs : List F) :
    (setGradients ids gs).Detached fun _ => True := by
  induction ids generalizing gs with
  | nil => trivial
  | cons id ids ih =>
    cases gs with
    | nil => trivial
    | cons g gs => exact ⟨trivial, fun _ => ih gs⟩

theorem detached_addGradients (ids : List Identifier) (gs : List F) :
    (addGradients ids gs).Detached fun _ => True := by
  induction ids generalizing gs with
  | nil => trivial
  | cons id ids ih =>
    cases gs with
    | nil => trivial
    | cons g gs => exact ⟨trivial, fun _ => ih gs⟩

end Program

namespace Staged

variable {a b : Staged F}

theorem Alike.gather (h : a.Alike b) : a.gather.Parallel Alike b.gather := by
  rw [Staged.gather, Staged.gather, h.identifiers_eq]
  refine (Program.detached_gradients _).parallel.bind fun gs gs' hgs => .pure ?_
  rw [hgs.1]
  exact h.withGradients gs

theorem Alike.take (h : a.Alike b) : a.take.Parallel Alike b.take := by
  rw [Staged.take, Staged.take, h.identifiers_eq]
  refine (Program.detached_takeGradients _).parallel.bind fun gs gs' hgs => .pure ?_
  rw [hgs.1]
  exact h.withGradients gs

theorem Alike.scatter (h : a.Alike b) : a.scatter.Parallel (fun _ _ => True) b.scatter := by
  rw [Staged.scatter, Staged.scatter, h.identifiers_eq, h.gradients_eq]
  exact (Program.detached_setGradients _ _).parallel.mono fun _ _ _ => trivial

theorem Alike.accumulate (h : a.Alike b) : a.accumulate.Parallel (fun _ _ => True) b.accumulate := by
  rw [Staged.accumulate, Staged.accumulate, h.identifiers_eq, h.gradients_eq]
  exact (Program.detached_addGradients _ _).parallel.mono fun _ _ _ => trivial

theorem Alike.writePrimals (h : a.Alike b) :
    a.writePrimals.Parallel (fun _ _ => True) b.writePrimals := by
  rw [Staged.writePrimals, Staged.writePrimals, h.identifiers_eq, h.values_eq]
  exact (Schema.detached_setPrimals _ _).parallel.mono fun _ _ _ => trivial

end Staged

namespace Schema

def Regular (s : Schema F) (body : s.Record → Program F s.Record) : Prop :=
  ∀ r r', s.Alike r r' →
    (body r).Parallel (fun q q' => s.SameScalars r q ∧ s.Alike q q') (body r')

variable {s : Schema F} {body : s.Record → Program F s.Record}

theorem Regular.keeps (h : s.Regular body) : s.Keeps body :=
  fun r => (h r r (.refl r)).detached.mono fun _ hq => hq.choose_spec.1

theorem Regular.blind (h : s.Regular body) : s.Blind body :=
  fun r r' hr => (h r r' hr).mirrors.mono fun _ _ hq => hq.2

theorem regular_pure (s : Schema F) : s.Regular pure := fun r _ h => .pure ⟨.refl r, h⟩

theorem alike_restore [Scalar F] (traits : Traits) (s : Schema F) :
    (s.restore traits).Alike s.Alike (s.restore traits) := (mirrors_restore traits s).alike

end Schema

namespace Product

variable [Scalar F]

theorem forward_regular : schema.Regular (forward (F := F)) := by
  rintro ⟨activity, code, n, k, m, a, b, z, _⟩ r' h
  obtain ⟨_, rfl, _, rfl, _, rfl, _, rfl, ⟨a', b', z', _⟩, rfl, h⟩ := h
  obtain ⟨ha, hb, hz, -⟩ : a.Alike a' ∧ b.Alike b' ∧ z.Alike z' ∧ True := h
  have hgather (active : Bool) {a a' : Staged F} (ha : a.Alike a') :
      (gatherIf active a).Parallel Staged.Alike (gatherIf active a') := by
    cases active with
    | true => exact ha.gather
    | false => exact .pure ha
  rw [forward, forward]
  refine (hgather _ ha).bind fun a a' ha => (hgather _ hb).bind fun b b' hb => ?_
  dsimp only
  rw [ha.values_eq, ha.gradients_eq, hb.values_eq, hb.gradients_eq]
  refine (Program.parallel_act (a := .hasPrimals) trivial).bind fun primals _ hprimals => ?_
  subst hprimals
  have hscatter {z z' : Staged F} (hz : z.Alike z') (gs : List F) :
      ((z.withGradients gs).scatter >>= fun _ =>
        (pure ⟨activity, code, n, k, m, a, b, z.withGradients gs, ()⟩ : Program F schema.Record)).Parallel
      (fun q q' => schema.SameScalars ⟨activity, code, n, k, m, a, b, z, ()⟩ q ∧ schema.Alike q q')
      ((z'.withGradients gs).scatter >>= fun _ =>
        pure ⟨activity, code, n, k, m, a', b', z'.withGradients gs, ()⟩) :=
    (hz.withGradients gs).scatter.bind fun _ _ _ =>
      .pure ⟨⟨_, rfl, _, rfl, _, rfl, _, rfl, _, rfl, trivial⟩,
        _, rfl, _, rfl, _, rfl, _, rfl, _, rfl, ha, hb, hz.withGradients gs, trivial⟩
  cases primals with
  | true => exact (hz.withValues _).writePrimals.bind fun _ _ _ => hscatter (hz.withValues _) _
  | false => exact hscatter hz _

theorem reverse_regular : schema.Regular (reverse (F := F)) := by
  rintro ⟨activity, code, n, k, m, a, b, z, _⟩ r' h
  obtain ⟨_, rfl, _, rfl, _, rfl, _, rfl, ⟨a', b', z', _⟩, rfl, h⟩ := h
  obtain ⟨ha, hb, hz, -⟩ : a.Alike a' ∧ b.Alike b' ∧ z.Alike z' ∧ True := h
  have hresult {a a' b b' z z' : Staged F} (ha : a.Alike a') (hb : b.Alike b') (hz : z.Alike z') :
      schema.Alike ⟨activity, code, n, k, m, a, b, z, ()⟩
        ⟨activity, code, n, k, m, a', b', z', ()⟩ :=
    ⟨_, rfl, _, rfl, _, rfl, _, rfl, _, rfl, ha, hb, hz, trivial⟩
  have hsame (a₁ b₁ z₁ : Staged F) : schema.SameScalars ⟨activity, code, n, k, m, a, b, z, ()⟩
      ⟨activity, code, n, k, m, a₁, b₁, z₁, ()⟩ :=
    ⟨_, rfl, _, rfl, _, rfl, _, rfl, _, rfl, trivial⟩
  rw [Product.reverse, Product.reverse]
  refine hz.take.bind fun z z' hz => ?_
  dsimp only
  rw [ha.values_eq, hb.values_eq, hz.gradients_eq]
  cases activity.get 0 <;> cases activity.get 1 <;>
    simp only [if_true, Bool.false_eq_true, if_false]
  · exact .pure ⟨hsame _ _ _, hresult ha hb hz⟩
  · have hb := hb.withGradients
    exact (hb _).accumulate.bind fun _ _ _ => .pure ⟨hsame _ _ _, hresult ha (hb _) hz⟩
  · have ha := ha.withGradients
    exact (ha _).accumulate.bind fun _ _ _ => .pure ⟨hsame _ _ _, hresult (ha _) hb hz⟩
  · have ha := ha.withGradients
    have hb := hb.withGradients
    exact (ha _).accumulate.bind fun _ _ _ => (hb _).accumulate.bind fun _ _ _ =>
      .pure ⟨hsame _ _ _, hresult (ha _) (hb _) hz⟩

theorem kernel_blind : (kernel (F := F)).reverse.Blind :=
  reverse_regular.blind.mirrors_reverse.alike

end Product

namespace Scaling

theorem note_alike (callback : String) {x x' y y' : Staged F} (hx : x.Alike x') (hy : y.Alike y') :
    (note callback x y).Alike (note callback x' y') :=
  .list (.cons (.refl _) (.cons (.refl _) (.cons (.staged hx) (.cons (.staged hy) .nil))))

theorem sameScalars (activity : ActivityMask) (n : Nat) (factor : F) (x y x' y' : Staged F) :
    schema.SameScalars ⟨activity, n, factor, x, y, ()⟩ ⟨activity, n, factor, x', y', ()⟩ :=
  ⟨_, rfl, _, rfl, _, rfl, trivial⟩

theorem alike (activity : ActivityMask) (n : Nat) (factor : F) {x y x' y' : Staged F}
    (hx : x.Alike x') (hy : y.Alike y') :
    schema.Alike ⟨activity, n, factor, x, y, ()⟩ ⟨activity, n, factor, x', y', ()⟩ :=
  ⟨_, rfl, _, rfl, _, rfl, hx, hy, trivial⟩

variable [Scalar F]

theorem forward_regular : schema.Regular (forward (F := F)) := by
  rintro ⟨activity, n, factor, x, y, _⟩ r' h
  obtain ⟨_, rfl, _, rfl, ⟨x', y', _⟩, rfl, h⟩ := h
  obtain ⟨hx, hy, -⟩ : x.Alike x' ∧ y.Alike y' ∧ True := h
  rw [forward, forward]
  refine .report (note_alike _ hx hy) (hx.gather.bind fun x x' hx => ?_)
  dsimp only
  rw [hx.values_eq, hx.gradients_eq]
  have hy := hy.withGradients (x'.gradients.items.map (factor * ·))
  refine (Program.parallel_act (a := .hasPrimals) trivial).bind fun primals _ hprimals => ?_
  subst hprimals
  cases primals with
  | true =>
    have hy := hy.withValues (x'.values.items.map (factor * ·))
    exact hy.writePrimals.bind fun _ _ _ => hy.scatter.bind fun _ _ _ =>
      .pure ⟨sameScalars .., alike _ _ _ hx hy⟩
  | false => exact hy.scatter.bind fun _ _ _ => .pure ⟨sameScalars .., alike _ _ _ hx hy⟩

theorem reverse_regular : schema.Regular (reverse (F := F)) := by
  rintro ⟨activity, n, factor, x, y, _⟩ r' h
  obtain ⟨_, rfl, _, rfl, ⟨x', y', _⟩, rfl, h⟩ := h
  obtain ⟨hx, hy, -⟩ : x.Alike x' ∧ y.Alike y' ∧ True := h
  rw [Scaling.reverse, Scaling.reverse]
  refine .report (note_alike _ hx hy) (hy.take.bind fun y y' hy => ?_)
  dsimp only
  rw [hy.gradients_eq]
  cases activity.get 0 <;> simp only [if_true, Bool.false_eq_true, if_false]
  · exact .pure ⟨sameScalars .., alike _ _ _ hx hy⟩
  · have hx := hx.withGradients
    exact (hx _).accumulate.bind fun _ _ _ => .pure ⟨sameScalars .., alike _ _ _ (hx _) hy⟩

omit [Scalar F] in
theorem delete_regular : schema.Regular (delete (F := F)) := by
  rintro ⟨activity, n, factor, x, y, _⟩ r' h
  obtain ⟨_, rfl, _, rfl, ⟨x', y', _⟩, rfl, h⟩ := h
  obtain ⟨hx, hy, -⟩ : x.Alike x' ∧ y.Alike y' ∧ True := h
  exact .report (.refl _) (.pure ⟨sameScalars .., alike _ _ _ hx hy⟩)

end Scaling

namespace SquareSum

theorem alike_splitHeaders (n : Nat) (next : List (Header F) → Schema F)
    {r r' : (headers n next).Record} (h : (headers n next).Alike r r') :
    ∃ hs q q', splitHeaders n next r = ⟨hs, q⟩ ∧ splitHeaders n next r' = ⟨hs, q'⟩ ∧
      (next hs).Alike q q' := by
  induction n generalizing next with
  | zero => exact ⟨[], r, r', rfl, rfl, h⟩
  | succ n ih =>
    obtain ⟨length, weight, needed, r⟩ := r
    obtain ⟨_, rfl, _, rfl, r', rfl, h⟩ := h
    obtain ⟨hs, q, q', hq, hq', h⟩ := ih _ h
    refine ⟨⟨length, weight, needed⟩ :: hs, q, q', ?_, ?_, h⟩
    · rw [splitHeaders, hq]
    · rw [splitHeaders, hq']

theorem ofRecord_eq {activity : ActivityMask} {m count : Nat}
    {r : (headers count fun hs => inputs (F := F) activity 0 hs (.output m .done)).Record}
    {hs : List (Header F)} {q : (inputs activity 0 hs (.output m .done)).Record}
    (h : splitHeaders count _ r = ⟨hs, q⟩) :
    Call.ofRecord ⟨activity, m, count, r⟩ =
      ⟨activity, (splitInputs activity 0 hs (.output m .done) q).1, m,
        (splitInputs activity 0 hs (.output m .done) q).2.1⟩ := by
  change (match splitHeaders count _ r with
    | ⟨hs, r⟩ => Call.mk activity (splitInputs activity 0 hs (.output m .done) r).1 m
        (splitInputs activity 0 hs (.output m .done) r).2.1) = _
  rw [h]

theorem alike_splitInputs (activity : ActivityMask) (i : Nat) (hs : List (Header F))
    (s : Schema F) {r r' : (inputs activity i hs s).Record}
    (h : (inputs activity i hs s).Alike r r') :
    List.Forall₂ (fun x y => x.1 = y.1 ∧ x.2.Alike y.2) (splitInputs activity i hs s r).1
        (splitInputs activity i hs s r').1 ∧
      s.Alike (splitInputs activity i hs s r).2 (splitInputs activity i hs s r').2 := by
  induction hs generalizing i with
  | nil => exact ⟨.nil, h⟩
  | cons header hs ih =>
    obtain ⟨a, r⟩ := r
    obtain ⟨a', r'⟩ := r'
    obtain ⟨hargs, hrest⟩ := ih (i + 1) h.2
    exact ⟨.cons ⟨rfl, h.1⟩ hargs, hrest⟩

structure Call.Alike (c c' : Call F) : Prop where
  activity_eq : c'.activity = c.activity
  outputs_eq : c'.outputs = c.outputs
  args : List.Forall₂ (fun x y => x.1 = y.1 ∧ x.2.Alike y.2) c.args c'.args
  result : c.result.Alike c'.result

theorem alike_ofRecord {r r' : (schema (F := F)).Record} (h : schema.Alike r r') :
    (Call.ofRecord r).Alike (Call.ofRecord r') := by
  obtain ⟨activity, m, count, r⟩ := r
  obtain ⟨_, rfl, _, rfl, r', rfl, h⟩ := h
  obtain ⟨hs, q, q', hq, hq', h⟩ := alike_splitHeaders count _ h
  obtain ⟨hargs, hresult⟩ := alike_splitInputs activity 0 hs (.output m .done) h
  rw [ofRecord_eq hq, ofRecord_eq hq']
  exact ⟨rfl, rfl, hargs, hresult.1⟩

theorem Call.Alike.note {c c' : Call F} (h : c.Alike c') (callback : String) :
    (c.note callback).Alike (c'.note callback) := by
  have hargs : List.Forall₂ Note.Alike (c.args.map fun arg => .staged arg.2)
      (c'.args.map fun arg => .staged arg.2) := by
    rw [List.forall₂_map_left_iff, List.forall₂_map_right_iff]
    exact h.args.imp fun _ _ hxy => .staged hxy.2
  exact .list (.cons (.refl _) (.cons (.refl _) (.cons (.list hargs)
    (.cons (.staged h.result) .nil))))

theorem Call.Alike.weighted_eq {c c' : Call F} (h : c.Alike c') :
    (c'.args.map fun arg => (arg.1.weight, arg.2.values.items)) =
      c.args.map fun arg => (arg.1.weight, arg.2.values.items) := by
  have hargs : List.Forall₂ Eq (c.args.map fun arg => (arg.1.weight, arg.2.values.items))
      (c'.args.map fun arg => (arg.1.weight, arg.2.values.items)) := by
    rw [List.forall₂_map_left_iff, List.forall₂_map_right_iff]
    refine h.args.imp fun x y hxy => ?_
    rw [hxy.1, hxy.2.values_eq]
  rw [List.forall₂_eq_eq_eq] at hargs
  exact hargs.symm

variable [Scalar F]

theorem parallel_addTangents (activity : ActivityMask) (m i : Nat)
    {args args' : List (Header F × Staged F)}
    (h : List.Forall₂ (fun x y => x.1 = y.1 ∧ x.2.Alike y.2) args args') (ys : List F) :
    (addTangents activity m i args ys).Parallel Eq (addTangents activity m i args' ys) := by
  induction h generalizing i ys with
  | nil => exact .pure rfl
  | @cons x y args args' hxy _ ih =>
    obtain ⟨header, a⟩ := x
    obtain ⟨_, b⟩ := y
    obtain ⟨rfl, hab⟩ := hxy
    rw [addTangents, addTangents]
    split
    case isTrue =>
      refine hab.gather.bind fun a b hab => ?_
      dsimp only
      rw [hab.values_eq, hab.gradients_eq]
      exact ih (i + 1) _
    case isFalse => exact ih (i + 1) ys

theorem parallel_spread (activity : ActivityMask) (adjoints : List F) (i : Nat)
    {args args' : List (Header F × Staged F)}
    (h : List.Forall₂ (fun x y => x.1 = y.1 ∧ x.2.Alike y.2) args args') :
    (spread activity adjoints i args).Parallel (fun _ _ => True)
      (spread activity adjoints i args') := by
  induction h generalizing i with
  | nil => exact .pure trivial
  | @cons x y args args' hxy _ ih =>
    obtain ⟨header, a⟩ := x
    obtain ⟨_, b⟩ := y
    obtain ⟨rfl, hab⟩ := hxy
    rw [spread, spread]
    dsimp only at hab ⊢
    rw [hab.values_eq, hab.gradients_eq]
    cases activity.get i <;> simp only [if_true, Bool.false_eq_true, if_false]
    · exact ih (i + 1)
    · exact (hab.withGradients _).accumulate.bind fun _ _ _ => ih (i + 1)

theorem forward_regular : schema.Regular (forward (F := F)) := by
  intro r r' h
  have hcall := alike_ofRecord h
  rw [forward, forward]
  refine .report (hcall.note _) ?_
  dsimp only
  rw [hcall.activity_eq, hcall.outputs_eq, hcall.result.gradients_eq]
  refine (parallel_addTangents _ _ 0 hcall.args _).bind fun tangents _ htangents => ?_
  subst htangents
  rw [hcall.weighted_eq]
  have hy := hcall.result.withGradients tangents
  refine (Program.parallel_act (a := .hasPrimals) trivial).bind fun primals _ hprimals => ?_
  subst hprimals
  cases primals with
  | true =>
    have hy := hy.withValues (sums (Call.ofRecord r).outputs ((Call.ofRecord r).args.map
      fun arg => (arg.1.weight, arg.2.values.items)))
    exact hy.writePrimals.bind fun _ _ _ => hy.scatter.bind fun _ _ _ =>
      .pure ⟨.refl r, h⟩
  | false => exact hy.scatter.bind fun _ _ _ => .pure ⟨.refl r, h⟩

theorem reverse_regular : schema.Regular (reverse (F := F)) := by
  intro r r' h
  have hcall := alike_ofRecord h
  rw [reverse, reverse]
  refine .report (hcall.note _) (hcall.result.take.bind fun y y' hy => ?_)
  dsimp only
  rw [hcall.activity_eq, hcall.outputs_eq, hy.gradients_eq]
  split
  · exact (parallel_spread _ _ 0 hcall.args).bind fun _ _ _ => .pure ⟨.refl r, h⟩
  · exact .pure ⟨.refl r, h⟩

omit [Scalar F] in
theorem delete_regular : schema.Regular (delete (F := F)) :=
  fun r _ h => .report ((alike_ofRecord h).note _) (.pure ⟨.refl r, h⟩)

end SquareSum

theorem ScriptStep.detached_runAll (results : List (Note F)) (steps : List (ScriptStep F)) :
    (runAll results steps).Detached fun _ => True := by
  induction steps generalizing results with
  | nil => trivial
  | cons step steps ih =>
    have hstep : (step.run results).Detached fun _ => True := by
      cases step <;> exact ⟨trivial, fun _ => trivial⟩
    exact hstep.bind fun _ _ => ih _

theorem Script.detached_callback (name : String) (steps : List (ScriptStep F)) :
    (callback name steps).Detached fun _ => True :=
  (ScriptStep.detached_runAll [] steps).bind fun _ _ => ⟨trivial, fun _ => trivial⟩

theorem Builtin.kernel_orderly [Scalar F] (apart : Prop) (script : Script F) (b : Builtin) :
    (b.kernel script).Orderly apart := by
  cases b with
  | scaling =>
    exact ⟨.forward _ Scaling.forward_regular.keeps fun _ => Scaling.forward_regular.blind,
      .reverse _ Scaling.reverse_regular.keeps fun _ => Scaling.reverse_regular.blind,
      .delete _ Scaling.delete_regular.keeps fun _ => Scaling.delete_regular.blind⟩
  | squareSum =>
    exact ⟨.forward _ SquareSum.forward_regular.keeps fun _ => SquareSum.forward_regular.blind,
      .reverse _ SquareSum.reverse_regular.keeps fun _ => SquareSum.reverse_regular.blind,
      .delete _ SquareSum.delete_regular.keeps fun _ => SquareSum.delete_regular.blind⟩
  | script =>
    exact ⟨.detached (Script.detached_callback _ _), .detached (Script.detached_callback _ _),
      .detached (Script.detached_callback _ _)⟩
  | product =>
    have hdelete : (Product.schema (F := F)).Regular pure := Schema.regular_pure _
    exact ⟨.forward _ Product.forward_regular.keeps fun _ => Product.forward_regular.blind,
      .reverse _ Product.reverse_regular.keeps fun _ => Product.reverse_regular.blind,
      .delete _ hdelete.keeps fun _ => hdelete.blind⟩

end Autodiff
