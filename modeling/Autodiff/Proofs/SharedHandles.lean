import Autodiff.Proofs.Bounds
import Autodiff.Proofs.Undoing
/-!
Recordings whose variables may be copied. Several variables may then hold one identifier, also with
different values, and the results of a product may hold identifiers of its factors.
-/

namespace Autodiff

open History

variable {F : Type} [Scalar F] {n : Nat}

namespace Issuer

variable {m : Issuer} {id : Identifier}

structure Accepts (m : Issuer) (ids : List Identifier) : Prop where
  distinct : DistinctActive ids
  notMem : ∀ id ∈ ids, id ∉ m.unused
  nodup : m.unused.Nodup

section Held

variable {ι : Type} {vs : List ι} {ids : ι → Identifier}

theorem ne_of_distinctActive {v w : ι} (h : DistinctActive (vs.map ids)) (hv : v ∈ vs)
    (hw : w ∈ vs) (hvw : v ≠ w) (hne : ids v ≠ passive) : ids v ≠ ids w := by
  have hsymm : Std.Symm fun v w => ids v ≠ passive → ids v ≠ ids w :=
    ⟨fun v w hvw hw heq => hvw (heq ▸ hw) heq.symm⟩
  exact (List.pairwise_map.mp h).forall hv hw hvw hne

theorem Accepts.guards [DecidableEq ι] (h : m.Accepts (vs.map ids)) (hm : m.Bounded)
    (hle : ∀ v ∈ vs, ids v ≤ m.largest) (hlinear : m.policy = .linear → m.unused = []) :
    m.Guards fun v => if v ∈ vs then ids v else passive := by
  have hpassive : passive ∉ m.unused := fun hmem => (hm _ hmem).1 rfl
  refine ⟨fun v w hvw hv => ?_, fun v => ?_, fun v => ?_, hpassive, fun id hid => (hm id hid).2,
    h.nodup, hlinear⟩
  · by_cases hmem : v ∈ vs
    · rw [if_pos hmem] at hv ⊢
      split
      case isTrue hw => exact ne_of_distinctActive h.distinct hmem hw hvw hv
      case isFalse => exact hv
    · rw [if_neg hmem] at hv
      exact absurd rfl hv
  · split
    case isTrue hv => exact hle v hv
    case isFalse => exact Nat.zero_le _
  · split
    case isTrue hv => exact h.notMem _ (List.mem_map_of_mem hv)
    case isFalse => exact hpassive

end Held

section Linear

variable (hm : m.policy = .linear → m.unused = []) (hp : m.policy = .linear)
include hm hp

theorem fresh_of_issue : m.largest < m.issue.1 := by
  rw [issue, hm hp]
  exact Nat.lt_succ_self _

theorem fresh_of_exchange {x : Identifier × Issuer} (hx : m.exchange id = .ok x) :
    m.largest < x.1 := by
  obtain ⟨m', hm', hx⟩ := exists_of_bind_eq_ok hx
  rw [retire, hp] at hm'
  cases hm'
  cases hx
  exact fresh_of_issue hm hp

theorem fresh_of_settle (id : Identifier) : m.largest < (m.settle id).1 := by
  rw [settle, hp]
  exact fresh_of_issue hm hp

end Linear

end Issuer

namespace ProductRef

def call (p : ProductRef n) (f : Fin n → Variable F) (results : List Identifier) : Product.Call F :=
  ⟨p.order, p.rows, p.inner, p.cols, p.left.map f, p.right.map f, results⟩

def isActive (p : ProductRef n) (f : Fin n → Variable F) : Bool :=
  (p.left.map f).any Variable.isActive || (p.right.map f).any Variable.isActive

def events (p : ProductRef n) (f g : Fin n → Variable F) : History F :=
  if p.isActive f then [.product (p.call f (p.results.map (Tape.idsOf g)))] else []

structure Leaves (p : ProductRef n) (token : Token) (t : Tape F) (f : Fin n → Variable F)
    (es : History F) (t' : Tape F) (g : Fin n → Variable F) : Prop where
  kept : ∀ v, v ∉ p.results → g v = f v
  distinct : DistinctActive (p.results.map (Tape.idsOf g))
  fresh : t.issuer.policy = .linear → ∀ v ∈ p.results,
    (g v).identifier = passive ∨ t.issuer.largest < (g v).identifier
  settled : ∀ i < p.rows, ∀ j < p.cols, ∀ v,
    p.results[p.order.offset p.rows p.cols i j]? = some v →
    (g v).isActive = (p.isActive f && Product.isActiveAt p.order p.rows p.inner p.cols
      (p.left.map f) (p.right.map f) i j)
  issuer : t.issuer.Onward t'.issuer
  follows : t'.Follows token t'.issuer (es ++ p.events f g)

theorem Leaves.released {p : ProductRef n} {token : Token} {t t' : Tape F}
    {f g : Fin n → Variable F} {es : History F} (h : p.Leaves token t f es t' g)
    (hactive : p.isActive f = false) {v : Fin n} (hv : v ∈ p.results) :
    (g v).identifier = passive := by
  obtain ⟨i, hi, j, hj, hplace⟩ := p.exists_place hv
  have hsettled := h.settled i hi j hj v hplace
  rw [hactive, Bool.false_and] at hsettled
  exact bne_eq_false_iff_eq.mp hsettled

theorem multiply_yields [LawfulCells F] {kernels : Kernels F} {kernel : Kernel F} {token : Token}
    {t : Tape F} {es : History F} (p : ProductRef n) {f : Fin n → Variable F}
    (h : t.Follows token t.issuer es) (hk : kernels token = some kernel)
    (hguards : t.issuer.Guards fun v => if v ∈ p.results then (f v).identifier else passive) :
    Yields (Product.multiply t kernels token p.order p.rows p.inner p.cols (p.left.map f)
      (p.right.map f) (p.results.map f)) fun x =>
      ∃ g, x.1 = p.results.map g ∧ p.Leaves token t f es x.2 g := by
  let σ : Ledger F n := ⟨t.issuer, f, es⟩
  -- The results are settled in a ledger in which nothing but them has an identifier.
  let τ : Ledger F n :=
    ⟨t.issuer, fun v => if v ∈ p.results then f v else (f v).release, es⟩
  have hids : τ.ids = fun v => if v ∈ p.results then (f v).identifier else passive := by
    funext v
    exact apply_ite Variable.identifier ..
  have hsettles : τ.Settles σ p := ⟨rfl, fun v hv => if_pos hv, hids ▸ hguards⟩
  obtain ⟨σ', hfold, hplaced⟩ :=
    Ledger.placeAll_yields (Ledger.guards_setValues hsettles.guards) (σ.placings p)
  have hissuer := hsettles.setValues_issuer
  have hissued : t.issuer.Onward σ'.issuer := by
    have hpolicy := hplaced.policy_eq
    have hlargest := hplaced.largest_le
    rw [hissuer] at hpolicy hlargest
    exact ⟨hpolicy, hlargest, fun _ => hplaced.guards.unused_linear⟩
  let g (v : Fin n) : Variable F := if v ∈ p.results then σ'.vars v else f v
  have hresults : p.results.map σ'.vars = p.results.map g :=
    List.map_congr_left fun v hv => (if_pos hv).symm
  have hresultIds : p.results.map σ'.ids = p.results.map (Tape.idsOf g) :=
    List.map_congr_left fun v hv => congrArg Variable.identifier (if_pos hv).symm
  have hleaves {t' : Tape F} (ht' : t'.issuer = σ'.issuer)
      (hfollows : t'.Follows token σ'.issuer (es ++ p.events f g)) :
      p.Leaves token t f es t' g := by
    have hg : ∀ v ∈ p.results, g v = σ'.vars v := fun v hv => if_pos hv
    refine ⟨fun v hv => if_neg hv, ?_, fun hp v hv => ?_, fun i hi j hj v hv => ?_, ht' ▸ hissued,
      ht' ▸ hfollows⟩
    · rw [← hresultIds]
      exact List.pairwise_map.mpr
        (p.nodup.imp fun hne hv => hplaced.guards.distinct _ _ hne hv)
    · have hfresh := hplaced.fresh
      rw [hissuer] at hfresh
      rw [hg v hv]
      exact hfresh hp v (Ledger.mem_placings.mpr hv)
    · have hplace : (v, p.isActive f && Product.isActiveAt p.order p.rows p.inner p.cols
          (p.left.map f) (p.right.map f) i j) ∈ σ.placings p := by
        cases hactive : p.isActive f with
        | false =>
          have hplacings : σ.placings p = p.results.map fun v => (v, false) :=
            if_neg (Bool.eq_false_iff.mp hactive)
          exact hplacings ▸ List.mem_map_of_mem (List.mem_of_getElem? hv)
        | true =>
          have hplacings : σ.placings p = (Product.places p.order p.rows p.inner p.cols
              (p.left.map f) (p.right.map f)).filterMap fun place =>
                p.results[place.1]?.map fun v => (v, place.2) := if_pos hactive
          rw [hplacings, Bool.true_and]
          exact List.mem_filterMap.mpr ⟨_, List.mem_map.mpr ⟨(i, j), mem_indexPairs.mpr ⟨hi, hj⟩, rfl⟩,
            by rw [hv]; rfl⟩
      rw [hg v (List.mem_of_getElem? hv)]
      exact hplaced.active (Ledger.nodup_placings σ p) _ hplace
  cases hactive : p.isActive f with
  | false =>
    have hissuer : t.issuer = σ.issuer := rfl
    rw [hsettles.multiply_of_passive hissuer hactive hfold]
    refine .ok ⟨g, hresults, hleaves rfl ?_⟩
    rw [events, hactive, if_neg Bool.false_ne_true, List.append_nil]
    exact h.withIssuer hissued.policy_eq
  | true =>
    refine (hsettles.multiply_of_active h hk hactive hplaced hfold).mono ?_
    rintro ⟨ys, t'⟩ ⟨rfl, hfollows⟩
    refine ⟨g, hresults, hleaves hfollows.issuer_eq ?_⟩
    rw [events, hactive, if_pos rfl, ← hresultIds]
    exact hfollows

theorem map_fst_writes_events (p : ProductRef n) (f g : Fin n → Variable F) :
    (writes (p.events f g)).map Prod.fst =
      if p.isActive f then p.results.map (Tape.idsOf g) else [] := by
  rw [events]
  split
  · have hfits : (p.call f (p.results.map (Tape.idsOf g))).Fits :=
      ⟨by simp [call, p.length_left], by simp [call, p.length_right],
        by simp [call, p.length_results]⟩
    rw [writes_singleton]
    exact hfits.map_fst_zip
  · rfl

end ProductRef

namespace History

def Known (es : History F) : Prop :=
  ∀ es' c, es' ++ [.product c] <+: es → ∀ x ∈ c.left ++ c.right, Holds es' x

theorem Known.append {es : History F} {e : Event F} (h : Known es)
    (he : ∀ c, e = .product c → ∀ x ∈ c.left ++ c.right, Holds es x) : Known (es ++ [e]) := by
  intro es' c hp
  rw [List.prefix_concat_iff] at hp
  rcases hp with hp | hp
  · obtain ⟨rfl, hc⟩ := List.append_inj' hp rfl
    exact he c (List.singleton_inj.mp hc).symm
  · exact h es' c hp

end History

namespace Recording

structure Recounts (token : Token) (r : Recording F) (f : Fin n → Variable F) (es : History F) :
    Prop where
  vars_eq : r.vars = List.ofFn f
  follows : r.tape.Follows token r.tape.issuer es
  bounded : r.Bounded token
  unused_linear : r.tape.issuer.policy = .linear → r.tape.issuer.unused = []
  regular : ∀ e ∈ es, e.Regular
  written : ∀ v, (f v).identifier = passive ∨ (f v).identifier ∈ (writes es).map Prod.fst
  distinct : r.tape.issuer.policy = .linear → DistinctActive ((writes es).map Prod.fst)
  writes_le : r.tape.issuer.policy = .linear → ∀ w ∈ writes es, w.1 ≤ r.tape.issuer.largest

theorem recounts_fresh (token : Token) (policy : Policy) (kind : TapeKind) (values : Fin n → F) :
    (fresh policy kind values).Recounts token (fun v => .constant (values v)) [] where
  vars_eq := rfl
  follows := Tape.new_follows policy kind
  bounded := bounded_fresh token policy kind values
  unused_linear _ := rfl
  regular _ h := absurd h List.not_mem_nil
  written _ := .inl rfl
  distinct _ := List.Pairwise.nil
  writes_le _ _ h := absurd h List.not_mem_nil

namespace Recounts

variable {token : Token} {r r' : Recording F} {f g : Fin n → Variable F} {es added : History F}
  {v : Fin n} {y : Variable F} {t : Tape F} {c : Catalogue F}

theorem extend (h : r.Recounts token f es) (hvars : r'.vars = List.ofFn g)
    (hfollows : r'.tape.Follows token r'.tape.issuer (es ++ added)) (hbounded : r'.Bounded token)
    (hissuer : r.tape.issuer.Onward r'.tape.issuer) (hregular : ∀ e ∈ added, e.Regular)
    (hids : ∀ v, (g v).identifier = passive ∨ (∃ w, (g v).identifier = (f w).identifier) ∨
      (g v).identifier ∈ (writes added).map Prod.fst)
    (hdistinct : DistinctActive ((writes added).map Prod.fst))
    (hfresh : r.tape.issuer.policy = .linear → ∀ w ∈ writes added,
      w.1 = passive ∨ r.tape.issuer.largest < w.1 ∧ w.1 ≤ r'.tape.issuer.largest) :
    r'.Recounts token g (es ++ added) where
  vars_eq := hvars
  follows := hfollows
  bounded := hbounded
  unused_linear := hissuer.unused_linear h.unused_linear
  regular e he := by
    rcases List.mem_append.mp he with he | he
    · exact h.regular e he
    · exact hregular e he
  written v := by
    rw [writes, List.flatMap_append, List.map_append, List.mem_append]
    rcases hids v with hv | ⟨w, hw⟩ | hv
    · exact .inl hv
    · rw [hw]
      exact (h.written w).imp_right .inl
    · exact .inr (.inr hv)
  distinct hl := by
    have hl' := hissuer.policy_eq.symm.trans hl
    exact distinct_append (h.distinct hl') hdistinct (h.writes_le hl') fun w hw =>
      (hfresh hl' w hw).imp_right And.left
  writes_le hl := by
    have hl' := hissuer.policy_eq.symm.trans hl
    exact writes_le_append (h.writes_le hl') hissuer.largest_le fun w hw =>
      (hfresh hl' w hw).imp_right And.right

theorem keep (h : r.Recounts token f es) (hvars : r'.vars = List.ofFn g)
    (hfollows : r'.tape.Follows token r'.tape.issuer es) (hbounded : r'.Bounded token)
    (hissuer : r.tape.issuer.Onward r'.tape.issuer)
    (hids : ∀ v, (g v).identifier = passive ∨ ∃ w, (g v).identifier = (f w).identifier) :
    r'.Recounts token g es := by
  have hfollows' : r'.tape.Follows token r'.tape.issuer (es ++ []) := by rwa [List.append_nil]
  have hextend := h.extend hvars hfollows' hbounded hissuer nofun
    (fun v => (hids v).imp_right .inl) .nil nofun
  rwa [List.append_nil] at hextend

omit [Scalar F] in
theorem ids_update (hy : y.identifier = passive ∨ ∃ w, y.identifier = (f w).identifier) (w : Fin n) :
    (Function.update f v y w).identifier = passive ∨
      ∃ u, (Function.update f v y w).identifier = (f u).identifier :=
  (Function.forall_update_iff f fun (_ : Fin n) (x : Variable F) => x.identifier = passive ∨
    ∃ u, x.identifier = (f u).identifier).mpr ⟨hy, fun w _ => .inr ⟨w, rfl⟩⟩ w

theorem set (h : r.Recounts token f es)
    (hy : y.identifier = passive ∨ ∃ w, y.identifier = (f w).identifier)
    (hbounded : (r.set v y).Bounded token) :
    (r.set v y).Recounts token (Function.update f v y) es := by
  refine h.keep ?_ h.follows hbounded (.refl _) (ids_update hy)
  change r.vars.set v y = _
  rw [h.vars_eq, set_ofFn]

theorem release (h : r.Recounts token f es) {x : Variable F} (hy : r.tape.release x = .ok (y, t))
    (hbounded : (r.setResult v (y, t)).2.Bounded token) :
    (r.setResult v (y, t)).2.Recounts token (Function.update f v y) es := by
  obtain ⟨t₁, h₁, hy⟩ := exists_of_bind_eq_ok hy
  obtain ⟨m, hm, h₁⟩ := exists_of_bind_eq_ok h₁
  cases h₁
  cases hy
  exact h.keep (vars_setResult h.vars_eq ..) (h.follows.withIssuer (Issuer.policy_retire hm))
    hbounded (.retire hm) (ids_update (.inl rfl))

theorem grant {e : Event F} {m : Issuer} (h : r.Recounts token f es)
    (ht : t.Follows token m (es ++ [e])) (hregular : e.Regular)
    (hw : e.writes = [(y.identifier, y.value)]) (hissuer : r.tape.issuer.Onward m)
    (hfresh : r.tape.issuer.policy = .linear → r.tape.issuer.largest < y.identifier)
    (hbounded : (r.setResult v (y, t)).2.Bounded token) :
    (r.setResult v (y, t)).2.Recounts token (Function.update f v y) (es ++ [e]) := by
  obtain rfl := ht.issuer_eq
  have hvars := vars_setResult h.vars_eq v y t
  have hwrites : writes [e] = [(y.identifier, y.value)] := (writes_singleton e).trans hw
  refine h.extend hvars ht hbounded hissuer ?_ ?_ ?_ fun hl w hw' => ?_
  · intro e' he'
    rw [List.mem_singleton.mp he']
    exact hregular
  · rw [hwrites]
    exact (Function.forall_update_iff f fun (_ : Fin n) (x : Variable F) => x.identifier = passive ∨
      (∃ w, x.identifier = (f w).identifier) ∨ x.identifier ∈ [y.identifier]).mpr
        ⟨.inr (.inr (List.mem_singleton_self _)), fun w _ => .inr (.inl ⟨w, rfl⟩)⟩
  · rw [hwrites]
    exact List.pairwise_singleton ..
  · rw [hwrites] at hw'
    rw [List.mem_singleton.mp hw']
    refine .inr ⟨hfresh hl, ?_⟩
    have hle := hbounded.get_le v
    rwa [get_of_vars hvars, Function.update_self] at hle

def GoesOn (token : Token) (r : Recording F) (g : Fin n → Variable F) (es : History F) : Prop :=
  ∃ added, r.Recounts token g (es ++ added) ∧ (Known es → Known (es ++ added))

theorem goesOn (h : r.Recounts token f es) : GoesOn token r f es :=
  ⟨[], by rwa [List.append_nil], by rw [List.append_nil]; exact id⟩

theorem goesOn_append {e : Event F} (h : r.Recounts token f (es ++ [e]))
    (he : ∀ c, e ≠ .product c) : GoesOn token r f es :=
  ⟨[e], h, fun hes => hes.append fun c hc => absurd hc (he c)⟩

section Operations

variable (h : r.Recounts token f es)
include h

theorem assign {value : F} {args : List (Identifier × F)}
    (hy : r.tape.assign (r.get v) value args = .ok (y, t))
    (hbounded : (r.setResult v (y, t)).2.Bounded token) :
    GoesOn token (r.setResult v (y, t)).2 (Function.update f v y) es := by
  cases hpassive : args.all fun a => a.1 == passive with
  | true =>
    rw [Tape.assign, if_pos hpassive] at hy
    exact (h.release hy hbounded).goesOn
  | false =>
    rw [Tape.assign_eq _ _ hpassive] at hy
    cases hy
    have hgives := h.bounded.tape.issuer.settle (h.bounded.get_le v)
    have hfollows := (h.follows.withIssuer hgives.policy_eq).elementary hgives.ne_passive value args
    have hregular : (Event.elementary (r.tape.issuer.settle (r.get v).identifier).1
        (Ledger.active args) value).Regular := by
      refine ⟨hgives.ne_passive, fun a ha => ?_⟩
      simpa using (List.mem_filter.mp ha).2
    have hissuer := Issuer.Onward.settle r.tape.issuer (r.get v).identifier
    have hfresh (hp : r.tape.issuer.policy = .linear) :=
      Issuer.fresh_of_settle h.unused_linear hp (r.get v).identifier
    rw [Tape.addArguments_eq] at hfollows hbounded ⊢
    exact (h.grant hfollows hregular rfl hissuer hfresh hbounded).goesOn_append (by simp)

theorem output (hy : r.tape.output (r.get v) = .ok (y, t))
    (hbounded : (r.setResult v (y, t)).2.Bounded token) :
    GoesOn token (r.setResult v (y, t)).2 (Function.update f v y) es := by
  by_cases hpassive : (r.get v).identifier = passive
  · rw [Tape.output, if_pos hpassive] at hy
    cases hy
    exact (h.set (.inl hpassive) hbounded).goesOn
  · have hgives := h.bounded.tape.issuer.issue
    obtain ⟨m, hm, rfl, rfl⟩ := Tape.output_cases hpassive hy
    have hissuer : r.tape.issuer.Onward m := (Issuer.Onward.issue _).trans (.retire hm)
    have hfollows := (h.follows.withIssuer hissuer.policy_eq).elementary hgives.ne_passive
      (r.get v).value [((r.get v).identifier, 1)]
    have hactive : Ledger.active [((r.get v).identifier, (1 : F))] = [((r.get v).identifier, 1)] := by
      simp [Ledger.active, hpassive]
    have hregular : (Event.elementary r.tape.issuer.issue.1 [((r.get v).identifier, 1)]
        (r.get v).value).Regular := by
      refine ⟨hgives.ne_passive, fun a ha => ?_⟩
      rw [List.mem_singleton.mp ha]
      exact hpassive
    rw [Tape.addArguments_eq, hactive] at hfollows
    exact (h.grant hfollows hregular rfl hissuer (Issuer.fresh_of_issue h.unused_linear)
      hbounded).goesOn_append (by simp)

theorem input (hy : r.tape.input (r.get v) = .ok (y, t))
    (hbounded : (r.setResult v (y, t)).2.Bounded token) :
    GoesOn token (r.setResult v (y, t)).2 (Function.update f v y) es := by
  obtain ⟨z, hz, hy⟩ := exists_of_bind_eq_ok hy
  obtain ⟨rfl, rfl⟩ := Prod.mk.inj (Except.ok.inj hy)
  have hgives := h.bounded.tape.issuer.exchange hz
  have hfollows := (h.follows.withIssuer hgives.policy_eq).input hgives.ne_passive (r.get v).value
  have hissuer := Issuer.Onward.exchange hz
  have hregular : (Event.input z.1 (r.get v).value).Regular := trivial
  have hfresh (hp : r.tape.issuer.policy = .linear) := Issuer.fresh_of_exchange h.unused_linear hp hz
  exact (h.grant hfollows hregular rfl hissuer hfresh hbounded).goesOn_append (by simp)

end Operations

theorem multiply [LawfulCells F] {kernel : Kernel F} (h : r.Recounts (c.token .product) f es)
    (hk : c.kernels (c.token .product) = some kernel) (p : ProductRef n)
    (haccepts : r.tape.issuer.Accepts (p.results.map fun v : Fin n => (r.get v).identifier)) :
    Yields ((Transfer.instruct (.multiply p)).apply c r) fun r' => ∃ g,
      p.Leaves (c.token .product) r.tape f es r'.tape g ∧
        r'.Recounts (c.token .product) g (es ++ p.events f g) := by
  have hget (v : Fin n) : r.get v = f v := get_of_vars h.vars_eq v
  have hget' : (p.results.map fun v : Fin n => (r.get v).identifier) = p.results.map (Tape.idsOf f) :=
    List.map_congr_left fun v _ => congrArg Variable.identifier (hget v)
  rw [hget'] at haccepts
  have hle (v : Fin n) : (f v).identifier ≤ r.tape.issuer.largest := hget v ▸ h.bounded.get_le v
  obtain ⟨⟨ys, t⟩, hys, g, hg, hleaves⟩ := p.multiply_yields h.follows hk
    (haccepts.guards h.bounded.tape.issuer (fun v _ => hle v) h.unused_linear)
  obtain rfl : ys = p.results.map g := hg
  have happly : (Transfer.instruct (.multiply p)).apply c r =
      .ok ((r.withTape t).setAll (p.results.map Fin.val) (p.results.map g)) := by
    change ((Product.multiply r.tape c.kernels (c.token .product) p.order p.rows p.inner p.cols
      (r.getAll (p.left.map Fin.val)) (r.getAll (p.right.map Fin.val))
      (r.getAll (p.results.map Fin.val)) >>= fun x => _) >>= fun x => _) = _
    rw [getAll_of_vars h.vars_eq, getAll_of_vars h.vars_eq, getAll_of_vars h.vars_eq, hys]
    rfl
  have hbounded := Transfer.bounded h.bounded happly
  obtain ⟨hvars, htape⟩ := setAll_eq (r := r.withTape t) p.results h.vars_eq hleaves.kept
  rw [happly]
  generalize (r.withTape t).setAll (p.results.map Fin.val) (p.results.map g) = r' at *
  obtain rfl : r'.tape = t := htape
  have hwritten : ∀ w ∈ writes (p.events f g), ∃ v ∈ p.results, (g v).identifier = w.1 := by
    intro w hw
    have hmem := List.mem_map_of_mem (f := Prod.fst) hw
    rw [p.map_fst_writes_events] at hmem
    split at hmem
    · exact List.mem_map.mp hmem
    · cases hmem
  refine .ok ⟨g, hleaves, h.extend hvars hleaves.follows hbounded hleaves.issuer ?_ ?_ ?_ ?_⟩
  · intro e he
    rw [ProductRef.events] at he
    split at he
    · rw [List.mem_singleton.mp he]
      exact ⟨⟨by simp [ProductRef.call, p.length_left], by simp [ProductRef.call, p.length_right],
        by simp [ProductRef.call, p.length_results]⟩, hleaves.distinct⟩
    · cases he
  · intro v
    by_cases hv : v ∈ p.results
    · rw [p.map_fst_writes_events]
      cases hactive : p.isActive f with
      | false => exact .inl (hleaves.released hactive hv)
      | true => exact .inr (.inr (List.mem_map_of_mem hv))
    · rw [hleaves.kept v hv]
      exact .inr (.inl ⟨v, rfl⟩)
  · rw [p.map_fst_writes_events]
    split
    · exact hleaves.distinct
    · exact .nil
  · intro hp w hw
    obtain ⟨v, hv, hid⟩ := hwritten w hw
    have hle := hbounded.get_le v
    rw [get_of_vars hvars] at hle
    rw [← hid]
    exact (hleaves.fresh hp v hv).imp_right fun hlt => ⟨hlt, hle⟩

end Recounts

end Recording

namespace Transfer

def Orderly (r : Recording F) : Transfer F n → Prop
  | create _ => False
  | externalOutput _ => False
  | instruct (.multiply p) =>
    r.tape.issuer.Accepts (p.results.map fun v : Fin n => (r.get v).identifier)
  | _ => True

/-- The active factors of a product have the primals that the tape has for them. -/
def InStep (r : Recording F) : Transfer F n → Prop
  | instruct (.multiply p) => ∀ v ∈ p.left ++ p.right, (r.get v).isActive = true →
    r.tape.vectors.primal (r.get v).identifier = (r.get v).value
  | _ => True

theorem apply_grows [LawfulCells F] {c : Catalogue F} {r r' : Recording F} {x : Transfer F n}
    (hr : x.apply c r = .ok r') : Tape.Grows (c.token .product) r.tape r'.tape := by
  cases x with
  | create v =>
    cases hr
    exact .withIssuer (Issuer.policy_issue _)
  | copy u v =>
    cases hr
    exact .refl _
  | externalOutput v =>
    obtain ⟨⟨note, r₁⟩, h₁, hr⟩ := exists_of_bind_eq_ok hr
    obtain ⟨⟨old, y, t⟩, hy, h₁⟩ := exists_of_bind_eq_ok h₁
    cases h₁
    cases hr
    exact .of_sameLog (Tape.freshOutput_sameLog hy)
  | instruct i =>
    obtain ⟨⟨note, r₁⟩, h₁, hr⟩ := exists_of_bind_eq_ok hr
    cases hr
    exact Recording.apply_grows h₁

theorem Orderly.grows [LawfulCells F] {c : Catalogue F} {r r' : Recording F} {x : Transfer F n}
    (_ : x.Orderly r) (hr : x.apply c r = .ok r') :
    Tape.Grows (c.token .product) r.tape r'.tape := apply_grows hr

end Transfer

namespace Recording

def Proceeds (c : Catalogue F) (admits : Recording F → Transfer F n → Prop) :
    Recording F → Recording F → Prop :=
  Relation.ReflTransGen fun r r' => ∃ x, admits r x ∧ x.apply c r = .ok r'

namespace Recounts

variable {r r' : Recording F} {f : Fin n → Variable F} {es : History F} {c : Catalogue F}

theorem holds_factors {token : Token} {p : ProductRef n} (h : r.Recounts token f es)
    (hprimals : r.tape.hasPrimals = true) (hstep : (Transfer.instruct (.multiply p)).InStep r) :
    ∀ x ∈ p.left.map f ++ p.right.map f, Holds es x := by
  rw [← List.map_append]
  rintro x hx hne
  obtain ⟨v, hv, rfl⟩ := List.mem_map.mp hx
  have hvalue := hstep v hv
  rw [get_of_vars h.vars_eq,
    Vectors.primal_eq hprimals h.follows.primals_eq (primals_passive es)] at hvalue
  exact ⟨(h.written v).resolve_left hne, hvalue (by simpa [Variable.isActive] using hne)⟩

variable [LawfulCells F]

theorem step {x : Transfer F n} (h : r.Recounts (c.token .product) f es)
    (hk : c.kernels (c.token .product) = some Product.kernel) (hx : x.Orderly r)
    (hr : x.apply c r = .ok r') :
    ∃ (g : Fin n → Variable F) (added : History F), r'.Recounts (c.token .product) g (es ++ added) ∧
      (r.tape.hasPrimals = true → x.InStep r → Known es → Known (es ++ added)) := by
  have hbounded := Transfer.bounded h.bounded hr
  have hgoes {g : Fin n → Variable F} (hg : GoesOn (c.token .product) r' g es) :
      ∃ (g : Fin n → Variable F) (added : History F), r'.Recounts (c.token .product) g (es ++ added) ∧
        (r.tape.hasPrimals = true → x.InStep r → Known es → Known (es ++ added)) := by
    obtain ⟨added, hadded, hknown⟩ := hg
    exact ⟨g, added, hadded, fun _ _ => hknown⟩
  cases x with
  | create v => cases hx
  | externalOutput v => cases hx
  | copy u v =>
    cases hr
    refine hgoes (h.set (v := v) (.inr ⟨u, ?_⟩) hbounded).goesOn
    rw [get_of_vars h.vars_eq]
  | instruct i =>
    cases i with
    | multiply p =>
      obtain ⟨r₁, hr₁, g, -, hrecounts⟩ := h.multiply hk p hx
      obtain rfl := Except.ok.inj (hr.symm.trans hr₁)
      refine ⟨g, _, hrecounts, fun hprimals hstep hes => ?_⟩
      rw [ProductRef.events]
      split
      · refine hes.append fun call hcall => ?_
        cases hcall
        exact h.holds_factors hprimals hstep
      · rwa [List.append_nil]
    | input v =>
      obtain ⟨⟨note, r₁⟩, h₁, hr⟩ := exists_of_bind_eq_ok hr
      obtain ⟨⟨y, t⟩, hy, h₁⟩ := exists_of_bind_eq_ok h₁
      cases h₁
      cases hr
      exact hgoes (h.input hy hbounded)
    | line l =>
      obtain ⟨⟨note, r₁⟩, h₁, hr⟩ := exists_of_bind_eq_ok hr
      cases l with
      | constant v value =>
        cases h₁
        cases hr
        exact hgoes (h.set (v := v) (.inl rfl) hbounded).goesOn
      | assign v value args =>
        obtain ⟨⟨y, t⟩, hy, h₁⟩ := exists_of_bind_eq_ok h₁
        cases h₁
        cases hr
        exact hgoes (h.assign hy hbounded)
      | output v =>
        obtain ⟨⟨y, t⟩, hy, h₁⟩ := exists_of_bind_eq_ok h₁
        cases h₁
        cases hr
        exact hgoes (h.output hy hbounded)
      | release v =>
        obtain ⟨⟨y, t⟩, hy, h₁⟩ := exists_of_bind_eq_ok h₁
        cases h₁
        cases hr
        exact hgoes (h.release hy hbounded).goesOn

variable (hk : c.kernels (c.token .product) = some Product.kernel)
include hk

theorem proceeds (h : r.Recounts (c.token .product) f es)
    (hr : r.Proceeds c (fun r (x : Transfer F n) => x.Orderly r) r') :
    ∃ (g : Fin n → Variable F) (added : History F),
      r'.Recounts (c.token .product) g (es ++ added) ∧ Tape.Grows (c.token .product) r.tape r'.tape := by
  induction hr with
  | refl => exact ⟨f, [], by rwa [List.append_nil], .refl _⟩
  | tail _ hstep ih =>
    obtain ⟨g, added, hadded, hgrows⟩ := ih
    obtain ⟨x, hx, happly⟩ := hstep
    obtain ⟨g', added', hadded', -⟩ := hadded.step hk hx happly
    refine ⟨g', added ++ added', ?_, hgrows.trans (hx.grows happly)⟩
    rwa [← List.append_assoc]

theorem exists_known {policy : Policy} {kind : TapeKind} {values : Fin n → F}
    (hr : (fresh policy kind values).Proceeds c
      (fun r (x : Transfer F n) => x.Orderly r ∧ (r.tape.hasPrimals = true → x.InStep r)) r) :
    ∃ (f : Fin n → Variable F) (es : History F), r.Recounts (c.token .product) f es ∧
      (r.tape.hasPrimals = true → Known es) := by
  induction hr with
  | refl =>
    refine ⟨_, [], recounts_fresh _ policy kind values, fun _ es' call hp => ?_⟩
    simp at hp
  | tail _ hstep ih =>
    obtain ⟨f, es, hrecounts, hknown⟩ := ih
    obtain ⟨x, ⟨hx, hin⟩, happly⟩ := hstep
    obtain ⟨g, added, hadded, hstill⟩ := hrecounts.step hk hx happly
    refine ⟨g, es ++ added, hadded, fun hp => ?_⟩
    rw [(hx.grows happly).hasPrimals_eq] at hp
    exact hstill hp (hin hp) (hknown hp)

end Recounts

end Recording

end Autodiff
