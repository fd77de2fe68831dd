import Autodiff.Proofs.Confinement

namespace Autodiff

variable {F : Type}

namespace Schema

def activeIds : (s : Schema F) → s.Record → List Identifier
  | done, _ => []
  | scalar _ next, r => (next r.1).activeIds r.2
  | input _ use next, r => (if use.active then r.1.identifiers.items else []) ++ next.activeIds r.2
  | output _ next, r => next.activeIds r.2

end Schema

namespace Record

variable [Scalar F] {record : Record F} {traits : Traits} {s : Schema F}

def targets (record : Record F) (traits : Traits) (s : Schema F) : List Identifier :=
  ((record.restored traits s).map (s.outputIds ·)).getD []

def sources (record : Record F) (traits : Traits) (s : Schema F) : List Identifier :=
  ((record.restored traits s).map (s.inputIds ·)).getD []

theorem names_of_restore {r : Replay F} (hr : r.Opens traits record) {x : s.Record × Replay F}
    (h : (s.restore traits).run r = .ok x) :
    s.outputIds x.1 = record.targets traits s ∧ s.inputIds x.1 = record.sources traits s := by
  have hbytes : r.SameBytes (record.reading traits) :=
    ⟨hr.traits_eq.symm, hr.fixed_eq.symm, hr.dynamic_eq.symm⟩
  obtain ⟨y, hy, halike, -⟩ :=
    (Schema.alike_restore traits s).run_sameBytes (Schema.confined_restore traits s) hbytes h
  have hnames := halike.sameNames
  have hrestored : record.restored traits s = some y.1 := by rw [restored, hy]
  rw [targets, sources, hrestored]
  exact ⟨hnames.outputIds_eq.symm, hnames.inputIds_eq.symm⟩

theorem names_of_fits [LawfulCells F] {a : s.Record} (hfit : s.Fits a)
    (hf : record.fixed = s.fixedCells a) (hd : record.dynamic = s.dynamicCells traits a) :
    record.targets traits s = s.outputIds a ∧ record.sources traits s = s.activeIds a := by
  have hnames (s : Schema F) {a b : s.Record} (h : s.Revived traits (fun _ => 0) a b) :
      s.outputIds b = s.outputIds a ∧ s.inputIds b = s.activeIds a := by
    induction s with
    | done => exact ⟨rfl, rfl⟩
    | scalar ty next ih =>
      obtain ⟨rest, rfl, h⟩ := h
      exact ih _ h
    | input n use next ih =>
      obtain ⟨hout, hin⟩ := ih h.2.2
      exact ⟨hout, congrArg₂ (· ++ ·) h.1 hin⟩
    | output n next ih =>
      obtain ⟨hout, hin⟩ := ih h.2.2
      exact ⟨congrArg₂ (· ++ ·) h.1 hout, hin⟩
  obtain ⟨b, hb, hrevived⟩ := record.restored_of_fits traits hfit hf hd
  rw [targets, sources, hb]
  exact hnames s hrevived

end Record

/-- The callbacks replay records of the schema and move no derivatives but as the helpers do: those
of outputs are set in a tangent sweep and taken in an adjoint one, which adds to those of inputs. -/
structure Kernel.Abides (kernel : Kernel F) [Scalar F] (s : Schema F) : Prop where
  forward : ∃ body, kernel.forward = s.forward body ∧
    ∀ a, (body a).Confined (Action.Scatters (s.outputIds a)) fun _ => True
  reverse : ∃ body, kernel.reverse = s.reverse body ∧
    ∀ a, (body a).Confined (Action.Distributes (s.outputIds a) (s.inputIds a)) fun _ => True

namespace Kernel.Abides

variable [Scalar F] {kernel : Kernel F} {s : Schema F} {record : Record F} {traits : Traits}
  {r : Replay F} {x : Unit × Replay F} {id : Identifier}

theorem slot_of_restore (allowed : List Identifier → List Identifier → Action F → Prop)
    (hinert : ∀ (a : Action F) outs ins, a.Inert → allowed outs ins a)
    (prepare : s.Record → Program F Unit)
    (hprepare : ∀ a, (prepare a).Confined Action.Inert fun _ => True)
    {body : s.Record → Program F s.Record}
    (hbody : ∀ a, (body a).Confined (allowed (s.outputIds a) (s.inputIds a)) fun _ => True)
    (hr : r.Opens traits record)
    (h : Program.run r (s.restore traits >>= fun a => Program.finishBoth >>= fun _ =>
      prepare a >>= fun _ => s.fetchPrimals traits a >>= fun a => body a >>= s.release) = .ok x)
    (hid : id = passive ∨ ∀ a : Action F,
      allowed (record.targets traits s) (record.sources traits s) a → ¬ a.Moves id) :
    x.2.vectors.adjoints.slot id = r.vectors.adjoints.slot id := by
  obtain ⟨⟨a, r₁⟩, hrestore, h⟩ := exists_of_bind_eq_ok ((Program.run_bind ..).symm.trans h)
  have hrestored := (Schema.confined_restore traits s).slot_eq hrestore
    (.inr fun a (ha : a.OfBytes) => ha.inert id)
  obtain ⟨houts, hins⟩ := Record.names_of_restore hr hrestore
  refine Eq.trans (Program.Confined.slot_eq (Q := fun _ => True) ?_ h hid) hrestored
  rw [← houts, ← hins]
  have hall {α : Type} {p : Program F α} {Q : α → Prop} (hp : p.Confined Action.Inert Q) :
      p.Confined (allowed (s.outputIds a) (s.inputIds a)) Q :=
    hp.mono (fun a ha => hinert a _ _ ha) fun _ hx => hx
  refine (hall confined_finishBoth).bind fun _ _ => ?_
  refine (hall (hprepare a)).bind fun _ _ => ?_
  refine (hall (Schema.confined_fetchPrimals traits s a)).bind fun b hb => ?_
  have hb' := hbody b
  rw [hb.outputIds_eq, hb.inputIds_eq] at hb'
  exact hb'.bind fun c _ => hall (Schema.confined_release s c)

theorem slot_forward (h : kernel.Abides s) (hr : r.Opens traits record)
    (hrun : kernel.forward.run r = .ok x) (hid : id = passive ∨ id ∉ record.targets traits s) :
    x.2.vectors.adjoints.slot id = r.vectors.adjoints.slot id := by
  obtain ⟨body, hforward, hbody⟩ := h.forward
  rw [hforward] at hrun
  have hrun : Program.run r (s.restore r.traits >>= fun a => Program.finishBoth >>= fun _ =>
    pure () >>= fun _ => s.fetchPrimals r.traits a >>= fun a => body a >>= s.release) = .ok x := hrun
  rw [hr.traits_eq] at hrun
  refine slot_of_restore (fun outs _ => Action.Scatters outs) (fun a outs _ ha => ha.scatters outs)
    (fun _ => pure ()) (fun _ => trivial) hbody hr hrun ?_
  exact hid.imp_right fun hid a ha hmoves => hid (ha.mem hmoves)

theorem slot_reverse (h : kernel.Abides s) (hr : r.Opens traits record)
    (hrun : kernel.reverse.run r = .ok x)
    (hid : id = passive ∨ id ∉ record.targets traits s ++ record.sources traits s) :
    x.2.vectors.adjoints.slot id = r.vectors.adjoints.slot id := by
  obtain ⟨body, hreverse, hbody⟩ := h.reverse
  rw [hreverse] at hrun
  have hrun : Program.run r (s.restore r.traits >>= fun a => Program.finishBoth >>= fun _ =>
      (if r.traits.rollsBack then s.rollBack a else pure ()) >>= fun _ =>
        s.fetchPrimals r.traits a >>= fun a => body a >>= s.release) = .ok x := by
    have hreverse : Program.run r (s.restore r.traits >>= fun a => Program.finishBoth >>= fun _ =>
        if r.traits.rollsBack then s.rollBack a >>= fun _ =>
          s.fetchPrimals r.traits a >>= fun a => body a >>= s.release
        else s.fetchPrimals r.traits a >>= fun a => body a >>= s.release) = .ok x := hrun
    cases hb : r.traits.rollsBack with
    | true =>
      rw [hb] at hreverse
      exact hreverse
    | false =>
      rw [hb] at hreverse
      exact hreverse
  rw [hr.traits_eq] at hrun
  refine slot_of_restore Action.Distributes (fun a outs ins ha => ha.distributes outs ins)
    (fun a => if traits.rollsBack then s.rollBack a else pure ()) (fun a => ?_) hbody hr hrun ?_
  · split
    · exact Schema.confined_rollBack s a
    · trivial
  · exact hid.imp_right fun hid a ha hmoves => hid (ha.mem hmoves)

end Kernel.Abides

section Library

variable {targets sources : List Identifier}

theorem Staged.confined_writePrimals (a : Staged F) :
    a.writePrimals.Confined (Action.Scatters targets) fun _ => True :=
  (Schema.confined_setPrimals _ _).mono (fun _ ha => ha.scatters targets) fun _ _ => trivial

theorem Product.confined_gatherIf (active : Bool) (a : Staged F) :
    (gatherIf active a).Confined (Action.Scatters targets) a.SameIds := by
  cases active with
  | true => exact a.confined_gather.mono (fun _ ha => ha.scatters targets) fun _ h => h
  | false => exact rfl

variable [Scalar F]

theorem Product.kernel_abides : (Product.kernel (F := F)).Abides Product.schema where
  forward := by
    refine ⟨Product.forward, rfl, ?_⟩
    rintro ⟨activity, code, n, k, m, a, b, y, ⟨⟩⟩
    have houts : ∀ id ∈ y.identifiers.items, id ∈ Product.schema.outputIds
        (⟨activity, code, n, k, m, a, b, y, ()⟩ : (Product.schema (F := F)).Record) :=
      fun id hid => List.mem_append_left _ hid
    rw [Product.forward]
    refine (confined_gatherIf _ a).bind fun a' _ => ?_
    refine (confined_gatherIf _ b).bind fun b' _ => ⟨trivial, fun primals => ?_⟩
    cases primals with
    | true =>
      refine (Staged.confined_writePrimals (y.withValues _)).bind fun _ _ => ?_
      refine (Staged.confined_scatter ((y.withValues _).withGradients _) houts).bind fun _ _ => ?_
      trivial
    | false =>
      refine (Staged.confined_scatter (y.withGradients _) houts).bind fun _ _ => ?_
      trivial
  reverse := by
    refine ⟨Product.reverse, rfl, ?_⟩
    rintro ⟨activity, code, n, k, m, a, b, y, ⟨⟩⟩
    have houts : ∀ id ∈ y.identifiers.items, id ∈ Product.schema.outputIds
        (⟨activity, code, n, k, m, a, b, y, ()⟩ : (Product.schema (F := F)).Record) :=
      fun id hid => List.mem_append_left _ hid
    have hleft : ∀ id ∈ a.identifiers.items, id ∈ Product.schema.inputIds
        (⟨activity, code, n, k, m, a, b, y, ()⟩ : (Product.schema (F := F)).Record) :=
      fun id hid => List.mem_append_left _ hid
    have hright : ∀ id ∈ b.identifiers.items, id ∈ Product.schema.inputIds
        (⟨activity, code, n, k, m, a, b, y, ()⟩ : (Product.schema (F := F)).Record) :=
      fun id hid => List.mem_append_right _ (List.mem_append_left _ hid)
    rw [Product.reverse]
    refine (y.confined_take houts).bind fun z _ => ?_
    cases activity.get 0 <;> cases activity.get 1
    · trivial
    · refine (Staged.confined_accumulate (b.withGradients _) hright).bind fun _ _ => ?_
      trivial
    · refine (Staged.confined_accumulate (a.withGradients _) hleft).bind fun _ _ => ?_
      trivial
    · refine (Staged.confined_accumulate (a.withGradients _) hleft).bind fun _ _ => ?_
      refine (Staged.confined_accumulate (b.withGradients _) hright).bind fun _ _ => ?_
      trivial

theorem Scaling.kernel_abides : (Scaling.kernel (F := F)).Abides Scaling.schema where
  forward := by
    refine ⟨Scaling.forward, rfl, ?_⟩
    rintro ⟨activity, n, factor, x, y, ⟨⟩⟩
    have houts : ∀ id ∈ y.identifiers.items, id ∈ Scaling.schema.outputIds
        (⟨activity, n, factor, x, y, ()⟩ : (Scaling.schema (F := F)).Record) :=
      fun id hid => List.mem_append_left _ hid
    rw [Scaling.forward]
    refine ⟨trivial, fun _ => ?_⟩
    refine (x.confined_gather.mono (fun _ ha => ha.scatters _) fun _ h => h).bind fun x' _ => ?_
    refine ⟨trivial, fun primals => ?_⟩
    cases primals with
    | true =>
      refine (Staged.confined_writePrimals ((y.withGradients _).withValues _)).bind fun _ _ => ?_
      refine (Staged.confined_scatter ((y.withGradients _).withValues _) houts).bind fun _ _ => ?_
      trivial
    | false =>
      refine (Staged.confined_scatter (y.withGradients _) houts).bind fun _ _ => ?_
      trivial
  reverse := by
    refine ⟨Scaling.reverse, rfl, ?_⟩
    rintro ⟨activity, n, factor, x, y, ⟨⟩⟩
    have houts : ∀ id ∈ y.identifiers.items, id ∈ Scaling.schema.outputIds
        (⟨activity, n, factor, x, y, ()⟩ : (Scaling.schema (F := F)).Record) :=
      fun id hid => List.mem_append_left _ hid
    have hins : ∀ id ∈ x.identifiers.items, id ∈ Scaling.schema.inputIds
        (⟨activity, n, factor, x, y, ()⟩ : (Scaling.schema (F := F)).Record) :=
      fun id hid => List.mem_append_left _ hid
    rw [Scaling.reverse]
    refine ⟨trivial, fun _ => (y.confined_take houts).bind fun z _ => ?_⟩
    cases activity.get 0 with
    | true =>
      refine (Staged.confined_accumulate (x.withGradients _) hins).bind fun _ _ => ?_
      trivial
    | false => trivial

namespace SquareSum

omit [Scalar F] in
theorem names_splitHeaders (n : Nat) (next : List (Header F) → Schema F)
    (r : (headers n next).Record) : ∃ hs q, splitHeaders n next r = ⟨hs, q⟩ ∧
      (headers n next).outputIds r = (next hs).outputIds q ∧
      (headers n next).inputIds r = (next hs).inputIds q := by
  induction n generalizing next with
  | zero => exact ⟨[], r, rfl, rfl, rfl⟩
  | succ n ih =>
    obtain ⟨length, weight, needed, r⟩ := r
    obtain ⟨hs, q, hq, houts, hins⟩ := ih _ r
    refine ⟨⟨length, weight, needed⟩ :: hs, q, ?_, houts, hins⟩
    rw [splitHeaders, hq]

omit [Scalar F] in
theorem names_splitInputs (activity : ActivityMask) (i : Nat) (hs : List (Header F))
    (s : Schema F) (r : (inputs activity i hs s).Record) :
    (inputs activity i hs s).outputIds r = s.outputIds (splitInputs activity i hs s r).2 ∧
      (inputs activity i hs s).inputIds r =
        (splitInputs activity i hs s r).1.flatMap (fun arg => arg.2.identifiers.items) ++
          s.inputIds (splitInputs activity i hs s r).2 := by
  induction hs generalizing i with
  | nil => exact ⟨rfl, rfl⟩
  | cons header hs ih =>
    obtain ⟨a, r⟩ := r
    obtain ⟨houts, hins⟩ := ih (i + 1) r
    refine ⟨houts, ?_⟩
    change a.identifiers.items ++ _ = _
    rw [hins, ← List.append_assoc]
    rfl

omit [Scalar F] in
theorem names_ofRecord (r : (schema (F := F)).Record) :
    schema.outputIds r = (Call.ofRecord r).result.identifiers.items ∧
      schema.inputIds r =
        (Call.ofRecord r).args.flatMap fun arg => arg.2.identifiers.items := by
  obtain ⟨activity, m, count, r⟩ := r
  obtain ⟨hs, q, hq, houts, hins⟩ := names_splitHeaders count _ r
  obtain ⟨houts', hins'⟩ := names_splitInputs activity 0 hs (.output m .done) q
  rw [ofRecord_eq hq]
  exact ⟨(houts.trans houts').trans (List.append_nil _),
    (hins.trans hins').trans (List.append_nil _)⟩

theorem confined_addTangents (activity : ActivityMask) (m i : Nat)
    (args : List (Header F × Staged F)) (ys : List F) :
    (addTangents activity m i args ys).Confined (Action.Scatters targets) fun _ => True := by
  induction args generalizing i ys with
  | nil => trivial
  | cons arg args ih =>
    obtain ⟨header, a⟩ := arg
    rw [addTangents]
    split
    · exact (a.confined_gather.mono (fun _ ha => ha.scatters _) fun _ h => h).bind fun _ _ =>
        ih (i + 1) _
    · exact ih (i + 1) ys

theorem confined_spread (activity : ActivityMask) (adjoints : List F) (i : Nat)
    {args : List (Header F × Staged F)}
    (h : ∀ id ∈ args.flatMap fun arg => arg.2.identifiers.items, id ∈ sources) :
    (spread activity adjoints i args).Confined (Action.Distributes targets sources)
      fun _ => True := by
  induction args generalizing i with
  | nil => trivial
  | cons arg args ih =>
    obtain ⟨header, a⟩ := arg
    have hrest := ih (i + 1) fun id hid => h id (List.mem_append_right _ hid)
    rw [spread]
    cases activity.get i with
    | true =>
      exact ((a.withGradients _).confined_accumulate fun id hid =>
        h id (List.mem_append_left _ hid)).bind fun _ _ => hrest
    | false => exact hrest

theorem kernel_abides : (kernel (F := F)).Abides schema where
  forward := by
    refine ⟨forward, rfl, fun r => ?_⟩
    have houts : ∀ id ∈ (Call.ofRecord r).result.identifiers.items, id ∈ schema.outputIds r :=
      fun id hid => (names_ofRecord r).1 ▸ hid
    rw [forward]
    refine ⟨trivial, fun _ => (confined_addTangents _ _ 0 _ _).bind fun tangents _ => ?_⟩
    refine ⟨trivial, fun primals => ?_⟩
    generalize (Call.ofRecord r).result = y at houts
    cases primals with
    | true =>
      refine (Staged.confined_writePrimals ((y.withGradients _).withValues _)).bind fun _ _ => ?_
      refine (Staged.confined_scatter ((y.withGradients _).withValues _) houts).bind fun _ _ => ?_
      trivial
    | false =>
      refine (Staged.confined_scatter (y.withGradients _) houts).bind fun _ _ => ?_
      trivial
  reverse := by
    refine ⟨reverse, rfl, fun r => ?_⟩
    obtain ⟨houts, hins⟩ := names_ofRecord r
    rw [reverse]
    refine ⟨trivial, fun _ => ?_⟩
    refine ((Call.ofRecord r).result.confined_take fun id hid => houts ▸ hid).bind fun y _ => ?_
    split
    · refine (confined_spread _ _ 0 fun id hid => hins ▸ hid).bind fun _ _ => ?_
      trivial
    · trivial

end SquareSum

end Library

end Autodiff
