import Autodiff.Proofs.RangeSweeps
import Autodiff.Proofs.SharedHandles

namespace Autodiff

open History Occurrence

variable {F : Type} [Scalar F] {n : Nat}

namespace History

variable {es es' later : History F} {e : Event F} {p : Identifier → F} {traits : Traits}

/-- The primals are those that the events left, except where the later ones write. -/
def Recalls (es later : History F) (p : Identifier → F) : Prop :=
  ∀ id, id = passive ∨ id ∉ (writes later).map Prod.fst → p id = primals es id

theorem recalls_primals (es later : History F) : Recalls es later (primals (es ++ later)) := by
  intro id hid
  rw [primals_append_writes]
  rcases hid with rfl | hid
  · exact overwrite_passive ..
  · exact overwrite_of_notMem _ hid

theorem distinct_of_prefix (hd : DistinctActive ((writes es).map Prod.fst)) (hp : es' <+: es) :
    DistinctActive ((writes es').map Prod.fst) := by
  obtain ⟨fs, rfl⟩ := hp
  rw [writes, List.flatMap_append, List.map_append] at hd
  exact (List.pairwise_append.mp hd).1

namespace Recalls

theorem eq_primals (h : Recalls es [] p) : p = primals es :=
  funext fun id => h id (.inr List.not_mem_nil)

theorem undo (h : Recalls es (later ++ [e]) p) :
    Recalls es later (e.undo (primals (es ++ later)) p) := by
  intro id hid
  by_cases hpassive : id = passive
  · rw [hpassive, Event.undo, overwrite_passive]
    exact h passive (.inl rfl)
  · by_cases hmem : id ∈ e.writes.map Prod.fst
    · rw [Event.undo, overwrite_map_of_mem _ _ hpassive hmem]
      exact recalls_primals es later id hid
    · rw [Event.undo, overwrite_of_notMem _ (by simpa using hmem)]
      refine h id (.inr ?_)
      rw [writes_append, List.map_append, List.mem_append]
      exact not_or.mpr ⟨hid.resolve_left hpassive, hmem⟩

theorem eq_of_distinct (h : Recalls es later p)
    (hd : DistinctActive ((writes (es ++ later)).map Prod.fst)) {id : Identifier}
    (hmem : id ∈ (writes es).map Prod.fst) (hid : id ≠ passive) : p id = primals es id := by
  rw [writes, List.flatMap_append, List.map_append] at hd
  exact h id (.inr fun hlater => (List.pairwise_append.mp hd).2.2 id hmem id hlater hid rfl)

theorem redo (h : Recalls es later p)
    (hd : DistinctActive ((writes es).map Prod.fst) ∨ traits.rollsBack = true) :
    Recalls es later (redo traits es p) := by
  intro id hid
  rw [redo_congr (h id hid), redo_primals hd]

theorem forwardAll {os : List (Occurrence F)} (h : Recalls es later p)
    (hos : ∀ o ∈ os, o.event ∈ later ∧ o.event.Regular) (hpassive : p passive = 0) (v : Slots F) :
    Recalls es later (forwardAll traits os ⟨v, p⟩).primals := by
  intro id hid
  rcases hid with rfl | hid
  · rw [primals_forwardAll_passive, primals_passive]
    exact hpassive
  · refine (primals_forwardAll_of_notMem _ fun o ho => ⟨(hos o ho).2, fun hmem => hid ?_⟩).trans
      (h id (.inr hid))
    obtain ⟨w, hw, rfl⟩ := List.mem_map.mp hmem
    exact List.mem_map_of_mem (List.mem_flatMap.mpr ⟨o.event, (hos o ho).1, hw⟩)

end Recalls

namespace Logged

variable {token : Token} {records records' : List (Record F)} {log log' full : List (Statement F)}

theorem length_eq (h : Logged traits token records log es) :
    log.length = (es.filter (Event.isLogged traits)).length := by
  induction h with
  | nil => rfl
  | skip _ he ih => simpa [he] using ih
  | append _ hst ih => simp [ih, isLogged_of_records hst]

theorem eq_of_prefix (h : Logged traits token records log es)
    (h' : Logged traits token records' log' es) (hp : log <+: full) (hp' : log' <+: full) :
    log = log' := by
  have hlength := h.length_eq.trans h'.length_eq.symm
  exact (List.prefix_of_prefix_length_le hp hp' hlength.le).eq_of_length hlength

theorem exists_last (h : Logged traits token records log (es ++ [e]))
    (he : e.isLogged traits = true) : ∃ earlier st, log = earlier ++ [st] ∧
      Logged traits token records earlier es ∧ st.Records traits token records (primals es) e := by
  generalize hes : es ++ [e] = fs at h
  cases h with
  | nil => simp at hes
  | skip h he' =>
    obtain ⟨rfl, hlast⟩ := List.append_inj' hes rfl
    rw [← List.singleton_inj.mp hlast, he] at he'
    cases he'
  | append h hst =>
    obtain ⟨rfl, hlast⟩ := List.append_inj' hes rfl
    obtain rfl := List.singleton_inj.mp hlast
    exact ⟨_, _, rfl, h, hst⟩

theorem exists_later {t : Tape F} {es₁ es₂ : History F}
    (h : Logged t.traits token t.records log es) (hes : ∀ e ∈ es, e.Regular)
    (heq : es = es₁ ++ es₂) :
    ∃ log₁ later os, log = log₁ ++ later ∧ Logged t.traits token t.records log₁ es₁ ∧
      t.Covers token later os ∧ (∀ o ∈ os, o.event ∈ es₂) ∧
      (t.traits.rollsBack = true → ∀ u p, Recalls es₁ es₂ p →
        (reverseAll t.traits os ⟨u, p⟩).primals = primals es₁) := by
  induction h generalizing es₂ with
  | nil =>
    obtain ⟨rfl, rfl⟩ := List.append_eq_nil_iff.mp heq.symm
    exact ⟨[], [], [], rfl, .nil, .nil, nofun, fun _ _ _ hp => hp.eq_primals⟩
  | @skip log es e h he ih =>
    rcases es₂.eq_nil_or_concat with rfl | ⟨fs, e', rfl⟩
    · rw [List.append_nil] at heq
      exact ⟨log, [], [], by simp, heq ▸ h.skip he, .nil, nofun, fun _ _ _ hp => hp.eq_primals⟩
    · rw [List.concat_eq_append, ← List.append_assoc] at heq
      obtain ⟨heq, -⟩ := List.append_inj' heq rfl
      obtain ⟨log₁, later, os, hlog, hlogged, hcovers, hos, -⟩ :=
        ih (fun e he => hes e (List.mem_append_left _ he)) heq
      have hb := (e.exists_input_of_isLogged he).1
      exact ⟨log₁, later, os, hlog, hlogged, hcovers, fun o ho => by simp [hos o ho],
        fun hb' => by rw [hb] at hb'; cases hb'⟩
  | @append log es st e h hst ih =>
    rcases es₂.eq_nil_or_concat with rfl | ⟨fs, e', rfl⟩
    · rw [List.append_nil] at heq
      exact ⟨log ++ [st], [], [], by simp, heq ▸ h.append hst, .nil, nofun,
        fun _ _ _ hp => hp.eq_primals⟩
    · rw [List.concat_eq_append, ← List.append_assoc] at heq
      obtain ⟨hrest, hlast⟩ := List.append_inj' heq rfl
      obtain rfl := List.singleton_inj.mp hlast
      obtain ⟨log₁, later, os, hlog, hlogged, hcovers, hos, hroll⟩ :=
        ih (fun e he => hes e (List.mem_append_left _ he)) hrest
      refine ⟨log₁, later ++ [st], os ++ [⟨e, primals es⟩], by rw [hlog, List.append_assoc],
        hlogged, List.rel_append hcovers (.cons ⟨hst, hes e (by simp)⟩ .nil), fun o ho => ?_,
        fun hb u p hp => ?_⟩
      · rcases List.mem_append.mp ho with ho | ho
        · simp [hos o ho]
        · simp [List.mem_singleton.mp ho]
      · -- The newest statement is swept first, and undoes its own event.
        rw [reverseAll_append]
        refine hroll hb _ _ ?_
        rw [List.concat_eq_append] at hp
        change Recalls es₁ fs (if t.traits.rollsBack then e.undo (primals es) p else p)
        rw [if_pos hb, hrest]
        exact hp.undo

end Logged

end History

namespace Tape

variable {t : Tape F} {kernels : Kernels F}

/-- A forward sweep over the whole log succeeds, and takes `s` to `s'` at the statement between the
earlier and the later ones. -/
structure PassesForward (t : Tape F) (kernels : Kernels F) (earlier : List (Statement F))
    (st : Statement F) (later : List (Statement F)) (s s' : Traced F) : Prop where
  reaches : earlier.foldlM (Traced.tangentStep kernels) ⟨t.widen, []⟩ = .ok s
  step : Traced.tangentStep kernels s st = .ok s'
  finishes : ∃ final, later.foldlM (Traced.tangentStep kernels) s' = .ok final ∧
    t.tangentSweepAll kernels = .ok final

structure PassesBack (t : Tape F) (kernels : Kernels F) (earlier : List (Statement F))
    (st : Statement F) (later : List (Statement F)) (s s' : Traced F) : Prop where
  reaches : later.reverse.foldlM (Traced.adjointStep kernels) ⟨t.widen, []⟩ = .ok s
  step : Traced.adjointStep kernels s st = .ok s'
  finishes : ∃ last final, earlier.reverse.foldlM (Traced.adjointStep kernels) s' = .ok last ∧
    t.adjointSweepAll kernels = .ok final ∧
    final.tape.vectors.adjoints = last.tape.vectors.adjoints

inductive Swept (kernels : Kernels F) (base : Tape F) : Tape F → Prop
  | recorded : Swept kernels base base
  | seed {u : Tape F} (h : Swept kernels base u) {x : Slots F} (hx : x.slot passive = 0) :
      Swept kernels base (u.withAdjoints x)
  | forward {u : Tape F} {s : Traced F} (h : Swept kernels base u)
      (hs : u.tangentSweepAll kernels = .ok s) : Swept kernels base s.tape
  | reverse {u : Tape F} {s : Traced F} (h : Swept kernels base u)
      (hs : u.adjointSweepAll kernels = .ok s) : Swept kernels base s.tape

theorem tangentSweepAll_eq (kernels : Kernels F) (h : t.log ≠ []) :
    t.tangentSweepAll kernels = t.log.foldlM (Traced.tangentStep kernels) ⟨t.widen, []⟩ := by
  have hcheck : t.checkSpan .zero t.position = .ok () := if_pos ⟨Nat.zero_le _, Nat.le_refl _⟩
  have hne : Position.zero.statements ≠ t.position.statements :=
    (List.length_pos_of_ne_nil h).ne
  rw [tangentSweepAll, tangentSweep, hcheck]
  change (if Position.zero.statements = t.position.statements then _ else _) = _
  rw [if_neg hne, range_zero_position]
  rfl

theorem adjointSweepAll_eq (kernels : Kernels F) (h : t.log ≠ []) :
    ∃ restore : Traced F → Traced F,
      (∀ s, (restore s).tape.vectors.adjoints = s.tape.vectors.adjoints) ∧
      t.adjointSweepAll kernels =
        t.log.reverse.foldlM (Traced.adjointStep kernels) ⟨t.widen, []⟩ >>= fun s =>
          .ok (restore s) := by
  have hcheck : t.checkSpan .zero t.position = .ok () := if_pos ⟨Nat.zero_le _, Nat.le_refl _⟩
  have hne : Position.zero.statements ≠ t.position.statements :=
    (List.length_pos_of_ne_nil h).ne
  rw [adjointSweepAll, adjointSweep, hcheck]
  change ∃ restore : Traced F → Traced F, _ ∧
    (if Position.zero.statements = t.position.statements then _ else _) = _
  rw [if_neg hne, range_zero_position]
  cases t.traits.rollsBack with
  | false => exact ⟨id, fun _ => rfl, rfl⟩
  | true =>
    exact ⟨fun s => s.mapTape fun u => { u.withPrimals t.widen.vectors.primals with
      sweepCopy := u.vectors.primals.getD u.sweepCopy }, fun _ => rfl, rfl⟩

section Passing

variable {earlier later : List (Statement F)} {st : Statement F} {s s' last : Traced F}
  (hlog : t.log = earlier ++ st :: later)
include hlog

theorem passesForward_of_folds
    (hs : earlier.foldlM (Traced.tangentStep kernels) ⟨t.widen, []⟩ = .ok s)
    (hs' : Traced.tangentStep kernels s st = .ok s')
    (hlast : later.foldlM (Traced.tangentStep kernels) s' = .ok last) :
    t.PassesForward kernels earlier st later s s' ∧ t.tangentSweepAll kernels = .ok last := by
  have hsweep : t.tangentSweepAll kernels = .ok last := by
    rw [tangentSweepAll_eq kernels (by simp [hlog]), hlog, List.foldlM_append, hs]
    change (st :: later).foldlM (Traced.tangentStep kernels) s = _
    rw [List.foldlM_cons, hs']
    exact hlast
  exact ⟨⟨hs, hs', last, hlast, hsweep⟩, hsweep⟩

theorem passesBack_of_folds
    (hs : later.reverse.foldlM (Traced.adjointStep kernels) ⟨t.widen, []⟩ = .ok s)
    (hs' : Traced.adjointStep kernels s st = .ok s')
    (hlast : earlier.reverse.foldlM (Traced.adjointStep kernels) s' = .ok last) :
    t.PassesBack kernels earlier st later s s' := by
  obtain ⟨restore, hrestore, hsweep⟩ := adjointSweepAll_eq kernels (t := t) (by simp [hlog])
  refine ⟨hs, hs', last, restore last, hlast, ?_, hrestore last⟩
  rw [hsweep, hlog, List.reverse_append, List.reverse_cons, List.append_assoc, List.foldlM_append, hs]
  change ([st] ++ earlier.reverse).foldlM (Traced.adjointStep kernels) s >>= _ = _
  rw [List.singleton_append, List.foldlM_cons, hs']
  change earlier.reverse.foldlM (Traced.adjointStep kernels) s' >>= _ = _
  rw [hlast]
  rfl

end Passing

structure Remembers (base t : Tape F) (es later : History F) (p : Identifier → F) : Prop where
  carries : t.Carries base t.vectors.adjoints p
  slot_passive : t.vectors.adjoints.slot passive = 0
  primals_passive : p passive = 0
  recalls : base.hasPrimals = true → Recalls es later p

/-- The statement that a product appended, between what was there and what came later. -/
structure Locates (t : Tape F) (token : Token) (es : History F) (call : Product.Call F)
    (added : History F) (earlier : List (Statement F)) (st : Statement F)
    (later : List (Statement F)) : Prop where
  log_eq : t.log = earlier ++ st :: later
  earlier : Logged t.traits token t.records earlier es
  statement : st.Records t.traits token t.records (primals es) (.product call)
  later : ∃ os, t.Covers token later os ∧ (∀ o ∈ os, o.event ∈ added) ∧
    (t.traits.rollsBack = true → ∀ u p, Recalls (es ++ [Event.product call]) added p →
      (reverseAll t.traits os ⟨u, p⟩).primals = primals (es ++ [Event.product call]))

theorem Locates.appended {token : Token} {es added : History F} {call : Product.Call F}
    {earlier later : List (Statement F)} {st : Statement F} {t₀ t₁ : Tape F}
    (h : t.Locates token es call added earlier st later)
    (h₀ : Logged t₀.traits token t₀.records t₀.log es)
    (h₁ : Logged t₁.traits token t₁.records t₁.log (es ++ [Event.product call]))
    (hcall : Grows token t₀ t₁) (hgrows : Grows token t₁ t) :
    earlier = t₀.log ∧ t₁.log = t₀.log ++ [st] := by
  have htraits₁ : t.traits = t₁.traits := hgrows.traits_eq
  have htraits₀ : t.traits = t₀.traits := htraits₁.trans hcall.traits_eq
  have hearlier := h.earlier
  have hfirst : earlier ++ [st] <+: t.log := by simp [h.log_eq]
  obtain rfl : earlier = t₀.log := by
    rw [htraits₀] at hearlier
    exact hearlier.eq_of_prefix h₀ ((List.prefix_append ..).trans hfirst) (hcall.log.trans hgrows.log)
  have happended := h.earlier.append h.statement
  rw [htraits₁] at happended
  exact ⟨rfl, (happended.eq_of_prefix h₁ hfirst hgrows.log).symm⟩

end Tape

namespace Recording.Recounts

variable {token : Token} {r : Recording F} {f : Fin n → Variable F} {es added : History F}
  {call : Product.Call F} (h : r.Recounts token f (es ++ [Event.product call] ++ added))
include h

theorem exists_locates :
    ∃ earlier st later, r.tape.Locates token es call added earlier st later := by
  obtain ⟨log₁, later, os, hlog, hlogged, hlater⟩ := h.follows.logged.exists_later h.regular rfl
  obtain ⟨earlier, st, rfl, hearlier, hst⟩ := hlogged.exists_last rfl
  exact ⟨earlier, st, later, by rw [hlog, List.append_assoc]; rfl, hearlier, hst, os, hlater⟩

theorem rollsBack_or_distinct (hprimals : r.tape.hasPrimals = true) :
    r.tape.traits.rollsBack = true ∨
      DistinctActive ((writes (es ++ [Event.product call] ++ added)).map Prod.fst) := by
  cases hp : r.tape.issuer.policy with
  | linear => exact .inr (h.distinct hp)
  | reuse => exact .inl (by simp [Traits.rollsBack, Tape.traits, hprimals, hp, Policy.isLinear])

theorem remembers_recorded :
    r.tape.Remembers r.tape (es ++ [Event.product call]) added
      (primals (es ++ [Event.product call] ++ added)) where
  carries := Tape.carries_self h.follows.lent_eq h.follows.primals_eq
  slot_passive := by rw [h.follows.adjoints_eq]; rfl
  primals_passive := primals_passive _
  recalls _ := recalls_primals _ _

variable {kernels : Kernels F} {earlier : List (Statement F)} {st : Statement F}
  {later : List (Statement F)} {t : Tape F} {p : Identifier → F}
  (hknown : r.tape.hasPrimals = true → Known (es ++ [Event.product call]))
  (ht : r.tape.Remembers t (es ++ [Event.product call]) added p)
include hknown ht

section Ready

variable {es' : History F} {e : Event F} (hfirst : es' ++ [e] <+: es ++ [Event.product call])
  (hprimals : r.tape.hasPrimals = true)
include hfirst hprimals

omit hknown in
theorem kept_of_not_rollsBack (hb : r.tape.traits.rollsBack = false) :
    (∀ id ∈ (writes es').map Prod.fst, id ≠ passive →
      p id = primals (es ++ [Event.product call]) id) ∧
      DistinctActive ((writes (es ++ [Event.product call])).map Prod.fst) := by
  have hd := (h.rollsBack_or_distinct hprimals).resolve_left (by simp [hb])
  have hes' : es' <+: es ++ [Event.product call] := (List.prefix_append es' _).trans hfirst
  refine ⟨fun id hmem hid => ?_, distinct_of_prefix hd (List.prefix_append ..)⟩
  exact (ht.recalls hprimals).eq_of_distinct hd (((hes'.flatMap _).map _).subset hmem) hid

theorem ready_redo : e.Ready (redo r.tape.traits es' p) :=
  History.ready_redo (fun c hc => hknown hprimals es' c (hc ▸ hfirst))
    ((List.prefix_append es' _).trans hfirst)
    (fun hb => (h.kept_of_not_rollsBack ht hfirst hprimals hb).1)
    fun hb => (h.kept_of_not_rollsBack ht hfirst hprimals hb).2

theorem ready_rewound : e.Ready (if r.tape.traits.rollsBack then primals es' else p) :=
  History.ready_rewound (fun c hc => hknown hprimals es' c (hc ▸ hfirst))
    ((List.prefix_append es' _).trans hfirst)
    (fun hb => (h.kept_of_not_rollsBack ht hfirst hprimals hb).1)
    fun hb => (h.kept_of_not_rollsBack ht hfirst hprimals hb).2

end Ready

variable [LawfulCells F] (hk : kernels token = some Product.kernel)
include hk

omit hknown in
theorem adjointSweepAll_remembers : Yields (t.adjointSweepAll kernels) fun final =>
    r.tape.Remembers final.tape (es ++ [Event.product call]) added p := by
  obtain ⟨os, hcovers, -⟩ := h.follows.logged.exists_covers h.regular
  have hspan : Position.zero.statements ≤ t.position.statements ∧
      t.position.statements ≤ r.tape.statementCount :=
    ⟨Nat.zero_le _, (congrArg List.length ht.carries.log_eq).le⟩
  refine (hcovers.adjointSweep_yields hk ht.carries ht.primals_passive hspan).mono ?_
  rintro final ⟨u, hu, hcarries⟩
  have hregular : ∀ o ∈ (os.take t.position.statements).drop Position.zero.statements,
      o.event.Regular := fun o ho =>
    (hcovers.exists_statement (List.mem_of_mem_take (List.mem_of_mem_drop ho))).1
  refine ⟨{ hcarries with adjoints_eq := rfl }, ?_, ht.primals_passive, ht.recalls⟩
  rw [hcarries.adjoints_eq]
  exact slot_reverseAll_passive p hregular ((congrFun hu passive).trans ht.slot_passive)

variable (hlocates : r.tape.Locates token es call added earlier st later)
include hlocates

theorem passesForward :
    (∃ s s', t.PassesForward kernels earlier st later s s' ∧
      s.tape.vectors.adjoints.slot passive = 0 ∧
      s'.tape.vectors.adjoints = call.tangent s.tape.vectors.adjoints) ∧
    Yields (t.tangentSweepAll kernels) fun last =>
      ∃ q, r.tape.Remembers last.tape (es ++ [Event.product call]) added q := by
  have hregular : ∀ e ∈ es ++ [Event.product call] ++ added, e.Regular := h.regular
  obtain ⟨s, hs, hcarries⟩ := tangentFold_yields (s := ⟨t.widen, []⟩) (fun e _ => e.served hk)
    hlocates.earlier ht.carries.widen ht.primals_passive fun es' e hfirst =>
      h.ready_redo hknown ht (hfirst.trans (List.prefix_append es _))
  have hopen : s.tape.vectors.adjoints.slot passive = 0 := by
    rw [hcarries.adjoints_eq]
    exact (tangent_congr (fun e he => hregular e (by simp [he])) rfl
      ((Slots.slot_ensure ..).trans ht.slot_passive)).2
  obtain ⟨s', hs', hcarries'⟩ := Traced.tangentStep_yields (Event.served hk (.product call))
    { hcarries with adjoints_eq := rfl } ((redo_passive ..).trans ht.primals_passive)
    hlocates.statement (h.ready_redo hknown ht (List.prefix_refl _))
  have hopen' : s'.tape.vectors.adjoints.slot passive = 0 := by
    rw [hcarries'.adjoints_eq]
    exact (Event.tangent_congr (hregular (.product call) (by simp)) rfl hopen).2
  have hredo : (Event.product call).redo (redo r.tape.traits es p) =
      redo r.tape.traits (es ++ [Event.product call]) p := (redo_append _ _ _ rfl).symm
  rw [hredo] at hcarries'
  have hpassive : redo r.tape.traits (es ++ [Event.product call]) p passive = 0 :=
    (redo_passive ..).trans ht.primals_passive
  obtain ⟨os, hcovers, hadded, -⟩ := hlocates.later
  have hos : ∀ o ∈ os, o.event.Regular := fun o ho => (hcovers.exists_statement ho).1
  obtain ⟨last, hlast, hcarries''⟩ := hcovers.tangentFold_yields
    (x := ⟨s'.tape.vectors.adjoints, redo r.tape.traits (es ++ [Event.product call]) p⟩) hk
    { hcarries' with adjoints_eq := rfl } hpassive
  obtain ⟨hpasses, hsweep⟩ := Tape.passesForward_of_folds
    (ht.carries.log_eq.trans hlocates.log_eq) hs hs' hlast
  refine ⟨⟨s, s', hpasses, hopen, hcarries'.adjoints_eq⟩, last, hsweep, _,
    { hcarries'' with adjoints_eq := rfl }, ?_, (primals_forwardAll_passive _).trans hpassive,
    fun hprimals => ?_⟩
  · rw [hcarries''.adjoints_eq]
    exact slot_forwardAll_passive _ hos hopen'
  · have hd := (h.rollsBack_or_distinct hprimals).symm.imp_left fun hd =>
      distinct_of_prefix hd (List.prefix_append ..)
    exact ((ht.recalls hprimals).redo hd).forwardAll (fun o ho => ⟨hadded o ho, hos o ho⟩) hpassive _

theorem passesBack :
    ∃ s s', t.PassesBack kernels earlier st later s s' ∧
      s.tape.vectors.adjoints.slot passive = 0 ∧
      s'.tape.vectors.adjoints = call.adjoint s.tape.vectors.adjoints := by
  obtain ⟨os, hcovers, -, hroll⟩ := hlocates.later
  let x : SweepState F := ⟨t.vectors.adjoints.ensure r.tape.issuer.largest, p⟩
  obtain ⟨s, hs, hcarries, hpassive⟩ := hcovers.adjointFold_yields (s := ⟨t.widen, []⟩) (x := x) hk
    ht.carries.widen ht.primals_passive
  have hopen : s.tape.vectors.adjoints.slot passive = 0 := by
    rw [hcarries.adjoints_eq]
    exact slot_reverseAll_passive p (fun o ho => (hcovers.exists_statement ho).1)
      ((Slots.slot_ensure ..).trans ht.slot_passive)
  -- The sweep has the primals that the call found, or all that there are if none are rolled back.
  have hrewound : (if r.tape.traits.rollsBack then
      (Event.product call).undo (primals es) (reverseAll r.tape.traits os x).primals
      else (reverseAll r.tape.traits os x).primals) =
        if r.tape.traits.rollsBack then primals es else p := by
    split
    case isTrue hb =>
      rw [hroll hb _ _ (ht.recalls (Bool.and_eq_true_iff.mp hb).1), primals_append, Event.undo,
        Event.redo, overwrite_overwrite]
    case isFalse hb =>
      exact funext fun id => primals_reverseAll_of_notMem _ fun hb' => absurd hb' hb
  obtain ⟨s', hs', hcarries'⟩ := Traced.adjointStep_yields (Event.served hk (.product call))
    { hcarries with adjoints_eq := rfl } hpassive hlocates.statement fun hprimals => by
      rw [hrewound]
      exact h.ready_rewound hknown ht (List.prefix_refl _) hprimals
  rw [hrewound] at hcarries'
  have hpassive' : (if r.tape.traits.rollsBack then primals es else p) passive = 0 := by
    split
    · exact primals_passive es
    · exact ht.primals_passive
  have hregular : ∀ e ∈ es ++ [Event.product call] ++ added, e.Regular := h.regular
  obtain ⟨os₀, hcovers₀, -⟩ := hlocates.earlier.exists_covers fun e he => hregular e (by simp [he])
  obtain ⟨last, hlast, -⟩ := hcovers₀.adjointFold_yields (x := ⟨_, _⟩) hk hcarries' hpassive'
  exact ⟨s, s', Tape.passesBack_of_folds (ht.carries.log_eq.trans hlocates.log_eq) hs hs' hlast,
    hopen, hcarries'.adjoints_eq⟩

omit ht in
theorem exists_remembers (hswept : r.tape.Swept kernels t) :
    ∃ p, r.tape.Remembers t (es ++ [Event.product call]) added p := by
  induction hswept with
  | recorded => exact ⟨_, h.remembers_recorded⟩
  | seed _ hx ih =>
    obtain ⟨p, hp⟩ := ih
    exact ⟨p, { hp.carries with adjoints_eq := rfl }, hx, hp.primals_passive, hp.recalls⟩
  | forward _ hs ih =>
    obtain ⟨p, hp⟩ := ih
    obtain ⟨-, final, hfinal, hremembers⟩ := h.passesForward hknown hp hk hlocates
    obtain rfl := Except.ok.inj (hs.symm.trans hfinal)
    exact hremembers
  | reverse _ hs ih =>
    obtain ⟨p, hp⟩ := ih
    obtain ⟨final, hfinal, hremembers⟩ := h.adjointSweepAll_remembers hp hk
    obtain rfl := Except.ok.inj (hs.symm.trans hfinal)
    exact ⟨p, hremembers⟩

end Recording.Recounts

end Autodiff
