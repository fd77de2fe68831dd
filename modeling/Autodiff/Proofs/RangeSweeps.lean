import Autodiff.Proofs.Replays

namespace Autodiff

open History

variable {F : Type}

structure Occurrence (F : Type) where
  event : Event F
  before : Identifier → F

structure SweepState (F : Type) where
  derivatives : Slots F
  primals : Identifier → F

variable [Scalar F]

structure SweepState.Agree (S : Identifier → Prop) (x y : SweepState F) : Prop where
  slot_eq : x.derivatives.slot = y.derivatives.slot
  slot_passive : x.derivatives.slot passive = 0
  primals_eq : ∀ id, S id → x.primals id = y.primals id

namespace SweepState.Agree

variable {S : Identifier → Prop} {x y : SweepState F}

theorem reopen (h : Agree S x y) {u : Slots F} (hu : u.slot = x.derivatives.slot) :
    Agree S ⟨u, x.primals⟩ y :=
  ⟨hu.trans h.slot_eq, (congrFun hu passive).trans h.slot_passive, h.primals_eq⟩

theorem of_slot_eq {u v : Slots F} {p q : Identifier → F} (h : u.slot = v.slot)
    (hu : u.slot passive = 0) (hS : ∀ id, S id → p id = q id) : Agree S ⟨u, p⟩ ⟨v, q⟩ := ⟨h, hu, hS⟩

end SweepState.Agree

theorem Event.undo_seen {traits : Traits} {e : Event F} (he : e.Regular) {r : Identifier → F}
    (p q : Identifier → F) : (e.seen traits r).undo p q = e.undo p q := by
  cases e with
  | elementary => rfl
  | input => rfl
  | product c =>
    rw [seen, he.1.seen.undo_eq, he.1.undo_eq, Product.Call.results_seen]

theorem Event.map_fst_writes_seen {traits : Traits} {e : Event F} (he : e.Regular)
    (q : Identifier → F) : (e.seen traits q).writes.map Prod.fst = e.writes.map Prod.fst := by
  cases e with
  | elementary => rfl
  | input => rfl
  | product c =>
    rw [seen, writes, writes, he.1.seen.map_fst_zip, he.1.map_fst_zip, Product.Call.results_seen]

namespace Occurrence

variable {traits : Traits} {o : Occurrence F} {S : Identifier → Prop} {x y : SweepState F}

def forward (traits : Traits) (x : SweepState F) (o : Occurrence F) : SweepState F :=
  ⟨(o.event.seen traits x.primals).tangent x.derivatives,
    (o.event.seen traits x.primals).redo x.primals⟩

def rewound (traits : Traits) (o : Occurrence F) (q : Identifier → F) : Identifier → F :=
  if traits.rollsBack then o.event.undo o.before q else q

def reverse (traits : Traits) (o : Occurrence F) (x : SweepState F) : SweepState F :=
  ⟨(o.event.seen traits (o.rewound traits x.primals)).adjoint x.derivatives,
    o.rewound traits x.primals⟩

theorem rewound_passive (q : Identifier → F) : o.rewound traits q passive = q passive := by
  rw [rewound]
  split
  · exact overwrite_passive ..
  · rfl

theorem rewound_congr {p q : Identifier → F} {id : Identifier} (h : p id = q id) :
    o.rewound traits p id = o.rewound traits q id := by
  rw [rewound, rewound]
  split
  · exact overwrite_congr h
  · exact h

theorem rewound_of_notMem {id : Identifier} (q : Identifier → F)
    (h : traits.rollsBack = true → id ∉ o.event.writes.map Prod.fst) :
    o.rewound traits q id = q id := by
  rw [rewound]
  split
  · rename_i hb
    refine overwrite_of_notMem q ?_
    rw [List.map_map]
    exact h hb
  · rfl

theorem forward_congr (ho : o.event.Regular) (hS : ∀ id, o.event.Sees traits id → S id)
    (h : SweepState.Agree S x y) : SweepState.Agree S (o.forward traits x) (o.forward traits y) := by
  have hseen : o.event.seen traits x.primals = o.event.seen traits y.primals :=
    Event.seen_congr fun id hid => h.primals_eq id (hS id hid)
  obtain ⟨hslot, hpassive⟩ :=
    Event.tangent_congr (e := o.event.seen traits x.primals) ho.seen h.slot_eq h.slot_passive
  rw [forward, forward, ← hseen]
  exact ⟨hslot, hpassive, fun id hid => overwrite_congr (h.primals_eq id hid)⟩

theorem reverse_congr (ho : o.event.Regular) (hS : ∀ id, o.event.Sees traits id → S id)
    (h : SweepState.Agree S x y) : SweepState.Agree S (o.reverse traits x) (o.reverse traits y) := by
  have hseen : o.event.seen traits (o.rewound traits x.primals) =
      o.event.seen traits (o.rewound traits y.primals) :=
    Event.seen_congr fun id hid => rewound_congr (h.primals_eq id (hS id hid))
  obtain ⟨hslot, hpassive⟩ :=
    Event.adjoint_congr (e := o.event.seen traits (o.rewound traits x.primals)) ho.seen h.slot_eq
      h.slot_passive
  rw [reverse, reverse, ← hseen]
  exact ⟨hslot, hpassive, fun id hid => rewound_congr (h.primals_eq id hid)⟩

def forwardAll (traits : Traits) (os : List (Occurrence F)) (x : SweepState F) : SweepState F :=
  os.foldl (forward traits) x

def reverseAll (traits : Traits) (os : List (Occurrence F)) (x : SweepState F) : SweepState F :=
  os.foldr (reverse traits) x

variable {os : List (Occurrence F)}

theorem forwardAll_append (os os' : List (Occurrence F)) (x : SweepState F) :
    forwardAll traits (os ++ os') x = forwardAll traits os' (forwardAll traits os x) :=
  List.foldl_append

theorem reverseAll_append (os os' : List (Occurrence F)) (x : SweepState F) :
    reverseAll traits (os ++ os') x = reverseAll traits os (reverseAll traits os' x) :=
  List.foldr_append

theorem forwardAll_congr (traits : Traits)
    (hos : ∀ o ∈ os, o.event.Regular ∧ ∀ id, o.event.Sees traits id → S id)
    (h : SweepState.Agree S x y) :
    SweepState.Agree S (forwardAll traits os x) (forwardAll traits os y) := by
  induction os generalizing x y with
  | nil => exact h
  | cons o os ih =>
    obtain ⟨ho, hS⟩ := hos o (by simp)
    exact ih (fun o' ho' => hos o' (List.mem_cons_of_mem _ ho')) (forward_congr ho hS h)

theorem reverseAll_congr (traits : Traits)
    (hos : ∀ o ∈ os, o.event.Regular ∧ ∀ id, o.event.Sees traits id → S id)
    (h : SweepState.Agree S x y) :
    SweepState.Agree S (reverseAll traits os x) (reverseAll traits os y) := by
  induction os with
  | nil => exact h
  | cons o os ih =>
    obtain ⟨ho, hS⟩ := hos o (by simp)
    exact reverse_congr ho hS (ih fun o' ho' => hos o' (List.mem_cons_of_mem _ ho'))

theorem slot_forwardAll_passive {v : Slots F} (q : Identifier → F)
    (hos : ∀ o ∈ os, o.event.Regular) (hv : v.slot passive = 0) :
    (forwardAll traits os ⟨v, q⟩).derivatives.slot passive = 0 :=
  (forwardAll_congr traits (fun o ho => ⟨hos o ho, fun _ _ => trivial⟩)
    (.of_slot_eq rfl hv fun _ _ => rfl : SweepState.Agree (fun _ => True) ⟨v, q⟩ ⟨v, q⟩)).slot_passive

theorem slot_reverseAll_passive {v : Slots F} (q : Identifier → F)
    (hos : ∀ o ∈ os, o.event.Regular) (hv : v.slot passive = 0) :
    (reverseAll traits os ⟨v, q⟩).derivatives.slot passive = 0 :=
  (reverseAll_congr traits (fun o ho => ⟨hos o ho, fun _ _ => trivial⟩)
    (.of_slot_eq rfl hv fun _ _ => rfl : SweepState.Agree (fun _ => True) ⟨v, q⟩ ⟨v, q⟩)).slot_passive

theorem primals_forwardAll_passive (x : SweepState F) :
    (forwardAll traits os x).primals passive = x.primals passive := by
  induction os generalizing x with
  | nil => rfl
  | cons o os ih => exact (ih _).trans (overwrite_passive ..)

theorem primals_forwardAll_of_notMem {id : Identifier} (x : SweepState F)
    (h : ∀ o ∈ os, o.event.Regular ∧ id ∉ o.event.writes.map Prod.fst) :
    (forwardAll traits os x).primals id = x.primals id := by
  induction os generalizing x with
  | nil => rfl
  | cons o os ih =>
    obtain ⟨ho, hnot⟩ := h o (by simp)
    refine (ih _ fun o' ho' => h o' (List.mem_cons_of_mem _ ho')).trans ?_
    exact overwrite_of_notMem _ (by rwa [Event.map_fst_writes_seen ho])

theorem primals_reverseAll_of_notMem {id : Identifier} (x : SweepState F)
    (h : traits.rollsBack = true → ∀ o ∈ os, id ∉ o.event.writes.map Prod.fst) :
    (reverseAll traits os x).primals id = x.primals id := by
  induction os with
  | nil => rfl
  | cons o os ih =>
    refine (rewound_of_notMem _ fun hb => h hb o (by simp)).trans ?_
    exact ih fun hb o' ho' => h hb o' (List.mem_cons_of_mem _ ho')

end Occurrence

open Occurrence

def Tape.Covers (t : Tape F) (token : Token) : List (Statement F) → List (Occurrence F) → Prop :=
  List.Forall₂ fun st o =>
    st.Records t.traits token t.records o.before o.event ∧ o.event.Regular

namespace Tape.Covers

variable {t : Tape F} {token : Token} {log : List (Statement F)} {os : List (Occurrence F)}

theorem slice (h : t.Covers token log os) (start stop : Nat) :
    t.Covers token ((log.take stop).drop start) ((os.take stop).drop start) :=
  List.forall₂_drop start (List.forall₂_take stop h)

theorem congr {t' : Tape F} (h : t.Covers token log os) (htraits : t'.traits = t.traits)
    (hrecords : t'.records = t.records) : t'.Covers token log os := by
  rw [Covers, htraits, hrecords]
  exact h

theorem mono {t' : Tape F} {added : List (Record F)} (h : t.Covers token log os)
    (htraits : t'.traits = t.traits) (hrecords : t'.records = t.records ++ added) :
    t'.Covers token log os := by
  rw [Covers, htraits, hrecords]
  exact h.imp fun st o hst => ⟨hst.1.mono added, hst.2⟩

theorem exists_statement (h : t.Covers token log os) {o : Occurrence F} (ho : o ∈ os) :
    o.event.Regular ∧ ∃ st ∈ log, st.Records t.traits token t.records o.before o.event := by
  induction h with
  | nil => simp at ho
  | @cons st o' log os hst h ih =>
    rcases List.mem_cons.mp ho with rfl | ho
    · exact ⟨hst.2, st, by simp, hst.1⟩
    · obtain ⟨hregular, st', hmem, hst'⟩ := ih ho
      exact ⟨hregular, st', List.mem_cons_of_mem _ hmem, hst'⟩

theorem notMem_writes [LawfulCells F] {log' : List (Statement F)} {os' : List (Occurrence F)}
    (h : t.Covers token log os) (h' : t.Covers token log' os') (hfree : t.LeavesFactors log log')
    {o o' : Occurrence F} (ho : o ∈ os) (ho' : o' ∈ os') {id : Identifier} (hid : o.event.Reads id)
    (hb : t.traits.rollsBack = true) : id ∉ o'.event.writes.map Prod.fst := by
  intro hmem
  obtain ⟨-, st, hst, hrecords⟩ := h.exists_statement ho
  obtain ⟨-, st', hst', hrecords'⟩ := h'.exists_statement ho'
  rw [← overwritten_eq hrecords'] at hmem
  exact hid.ne_passive (hfree hb st hst st' hst' id hmem (mem_factors hrecords hid))

end Tape.Covers

theorem History.Logged.exists_covers {t : Tape F} {token : Token} {log : List (Statement F)}
    {es : History F} (h : Logged t.traits token t.records log es) (hes : ∀ e ∈ es, e.Regular) :
    ∃ os, t.Covers token log os ∧ os.map Occurrence.event = es.filter (Event.isLogged t.traits) := by
  induction h with
  | nil => exact ⟨[], .nil, rfl⟩
  | skip _ he ih =>
    obtain ⟨os, hos, hevents⟩ := ih fun e he => hes e (List.mem_append_left _ he)
    exact ⟨os, hos, by simp [hevents, he]⟩
  | @append log es st e h hst ih =>
    obtain ⟨os, hos, hevents⟩ := ih fun e he => hes e (List.mem_append_left _ he)
    refine ⟨os ++ [⟨e, primals es⟩], List.rel_append hos (.cons ⟨hst, hes e (by simp)⟩ .nil), ?_⟩
    simp [hevents, isLogged_of_records hst]

section Folds

variable [LawfulCells F] {kernels : Kernels F} {token : Token} {base : Tape F} {s : Traced F}
  {log : List (Statement F)} {os : List (Occurrence F)} {x : SweepState F}
  (hk : kernels token = some Product.kernel) (hcovers : base.Covers token log os)
  (hs : s.tape.Carries base x.derivatives x.primals) (hq : x.primals passive = 0)
include hk hcovers hs hq

theorem Tape.Covers.tangentFold_yields :
    Yields (log.foldlM (Traced.tangentStep kernels) s) fun s' =>
      s'.tape.Carries base (forwardAll base.traits os x).derivatives
        (forwardAll base.traits os x).primals := by
  induction hcovers generalizing s x with
  | nil => exact .ok hs
  | @cons st o log os hst h ih =>
    rw [List.foldlM_cons]
    have hstep := Traced.tangentStep_yields (Event.served hk _) hs hq (hst.1.seen x.primals)
      fun hp => Event.seen_ready base.traits hp
    exact hstep.bind fun s₁ hs₁ =>
      ih (x := o.forward base.traits x) hs₁ ((overwrite_passive ..).trans hq)

theorem Tape.Covers.adjointFold_yields :
    Yields (log.reverse.foldlM (Traced.adjointStep kernels) s) fun s' =>
      s'.tape.Carries base (reverseAll base.traits os x).derivatives
          (reverseAll base.traits os x).primals ∧
        (reverseAll base.traits os x).primals passive = 0 := by
  induction hcovers with
  | nil => exact .ok ⟨hs, hq⟩
  | @cons st o log os hst h ih =>
    rw [List.reverse_cons, List.foldlM_append]
    -- The statements after this one are swept first.
    refine ih.bind fun s₁ hs₁ => ?_
    obtain ⟨hs₁, hq₁⟩ := hs₁
    have hrewound : (if base.traits.rollsBack then
        (o.event.seen base.traits (o.rewound base.traits (reverseAll base.traits os x).primals)).undo
          o.before (reverseAll base.traits os x).primals
        else (reverseAll base.traits os x).primals) =
        o.rewound base.traits (reverseAll base.traits os x).primals := by
      rw [Event.undo_seen hst.2]
      rfl
    have hstep := Traced.adjointStep_yields (Event.served hk _) hs₁ hq₁
      (hst.1.seen (o.rewound base.traits (reverseAll base.traits os x).primals)) fun hp => by
        rw [hrewound]
        exact Event.seen_ready base.traits hp
    rw [hrewound] at hstep
    exact hstep.bind fun s₂ hs₂ => .ok ⟨hs₂, (rewound_passive _).trans hq₁⟩

end Folds

section Sweeps

variable [LawfulCells F] {kernels : Kernels F} {token : Token} {t base : Tape F}
  {os : List (Occurrence F)} {v : Slots F} {q : Identifier → F} {start stop : Position}

omit [LawfulCells F] in
theorem Tape.Carries.widen (h : t.Carries base v q) :
    t.widen.Carries base (v.ensure base.issuer.largest) q := by
  have hwide := (t.widen_carries h.lent_eq h.primals_eq).trans h
  rwa [h.adjoints_eq, h.issuer_eq] at hwide

omit [LawfulCells F] in
theorem Tape.Carries.checkSpan (h : t.Carries base v q)
    (hspan : start.statements ≤ stop.statements ∧ stop.statements ≤ base.statementCount) :
    t.checkSpan start stop = .ok () := by
  refine if_pos ⟨hspan.1, ?_⟩
  rw [statementCount, h.log_eq]
  exact hspan.2

variable (hk : kernels token = some Product.kernel) (hcovers : base.Covers token base.log os)
  (h : t.Carries base v q) (hq : q passive = 0)
  (hspan : start.statements ≤ stop.statements ∧ stop.statements ≤ base.statementCount)
include hk hcovers h hq hspan

theorem Tape.Covers.tangentSweep_yields :
    Yields (t.tangentSweep kernels start stop) fun s => ∃ u : Slots F, u.slot = v.slot ∧
      s.tape.Carries base
        (forwardAll base.traits ((os.take stop.statements).drop start.statements) ⟨u, q⟩).derivatives
        (forwardAll base.traits ((os.take stop.statements).drop start.statements) ⟨u, q⟩).primals := by
  rw [tangentSweep, h.checkSpan hspan]
  change Yields (if start.statements = stop.statements then _ else _) _
  split
  · rename_i heq
    refine .ok ⟨v, rfl, ?_⟩
    rw [heq, List.drop_eq_nil_of_le (List.length_take_le ..)]
    exact h
  · have hslice := hcovers.slice start.statements stop.statements
    rw [Tape.range, h.log_eq]
    refine (hslice.tangentFold_yields (x := ⟨v.ensure base.issuer.largest, q⟩) hk h.widen hq).mono ?_
    exact fun s hs => ⟨_, funext fun id => Slots.slot_ensure .., hs⟩

theorem Tape.Covers.adjointSweep_yields :
    Yields (t.adjointSweep kernels start stop) fun s => ∃ u : Slots F, u.slot = v.slot ∧
      s.tape.Carries base (reverseAll base.traits
        ((os.take stop.statements).drop start.statements) ⟨u, q⟩).derivatives q := by
  rw [adjointSweep, h.checkSpan hspan]
  change Yields (if start.statements = stop.statements then _ else _) _
  split
  · rename_i heq
    refine .ok ⟨v, rfl, ?_⟩
    rw [heq, List.drop_eq_nil_of_le (List.length_take_le ..)]
    exact h
  · have hslice := hcovers.slice start.statements stop.statements
    have hwide := h.widen
    have hopen : (v.ensure base.issuer.largest).slot = v.slot :=
      funext fun id => Slots.slot_ensure ..
    rw [Tape.range, h.log_eq]
    refine (hslice.adjointFold_yields (x := ⟨v.ensure base.issuer.largest, q⟩) hk hwide hq).bind ?_
    rintro s ⟨hs, -⟩
    rw [h.traits_eq]
    split
    · -- The primals that the sweep started from are put back.
      refine .ok ⟨_, hopen, ?_⟩
      exact ⟨hs.issuer_eq, hs.log_eq, hs.pending_eq, hs.records_eq, hwide.hasPrimals_eq,
        hs.lent_eq, hs.adjoints_eq, hwide.primals_eq⟩
    · rename_i hb
      refine .ok ⟨_, hopen, ?_⟩
      refine { hs with primals_eq := fun p hp => (hs.primals_eq p hp).trans (funext fun id => ?_) }
      exact primals_reverseAll_of_notMem _ fun hb' => absurd hb' hb

end Sweeps

end Autodiff
