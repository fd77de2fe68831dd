import Autodiff.Proofs.Growth
import Autodiff.Proofs.Reservations

namespace Autodiff

variable {F : Type} [Scalar F] {n : Nat}

namespace Issuer

variable {m m' : Issuer} {id : Identifier} {x : Identifier × Issuer}

def Bounded (m : Issuer) : Prop := ∀ id ∈ m.unused, id ≠ passive ∧ id ≤ m.largest

structure Gives (m : Issuer) (x : Identifier × Issuer) : Prop where
  ne_passive : x.1 ≠ passive
  le : x.1 ≤ x.2.largest
  bounded : x.2.Bounded
  largest_le : m.largest ≤ x.2.largest
  policy_eq : x.2.policy = m.policy

namespace Bounded

theorem issue (h : m.Bounded) : m.Gives m.issue := by
  have hpolicy := policy_issue m
  unfold Issuer.issue at hpolicy ⊢
  cases hu : m.unused with
  | nil =>
    rw [hu] at hpolicy
    refine ⟨Nat.succ_ne_zero _, Nat.le_refl _, fun id hid => ?_, Nat.le_succ _, hpolicy⟩
    cases hid
  | cons first rest =>
    rw [hu] at hpolicy
    obtain ⟨hne, hle⟩ := h first (hu ▸ List.mem_cons_self)
    refine ⟨hne, hle, fun id hid => ?_, Nat.le_refl _, hpolicy⟩
    exact h id (hu ▸ List.mem_cons_of_mem _ hid)

theorem retire (h : m.Bounded) (hm : m.retire id = .ok m') :
    m'.Bounded ∧ m'.largest = m.largest ∧ m'.policy = m.policy := by
  refine (and_assoc.mp ⟨?_, policy_retire hm⟩)
  rw [Issuer.retire] at hm
  split at hm
  case h_1 =>
    cases hm
    exact ⟨h, rfl⟩
  case h_2 =>
    split at hm
    case isTrue =>
      cases hm
      exact ⟨h, rfl⟩
    case isFalse hne =>
      split at hm
      case isTrue hle =>
        cases hm
        refine ⟨fun o ho => ?_, rfl⟩
        rcases List.mem_cons.mp ho with rfl | ho
        · exact ⟨hne, hle⟩
        · exact h o ho
      case isFalse => cases hm

theorem exchange (h : m.Bounded) (hx : m.exchange id = .ok x) : m.Gives x := by
  obtain ⟨m₁, h₁, hx⟩ := exists_of_bind_eq_ok hx
  cases hx
  obtain ⟨hbounded, hlargest, hpolicy⟩ := h.retire h₁
  have hissue := hbounded.issue
  exact ⟨hissue.ne_passive, hissue.le, hissue.bounded, hlargest ▸ hissue.largest_le,
    hissue.policy_eq.trans hpolicy⟩

theorem settle (h : m.Bounded) (hid : id ≤ m.largest) : m.Gives (m.settle id) := by
  rw [Issuer.settle]
  split
  case h_1 => exact h.issue
  case h_2 =>
    split
    case isTrue => exact h.issue
    case isFalse hne => exact ⟨hne, hid, h, Nat.le_refl _, rfl⟩

end Bounded

end Issuer

structure Statement.Within (st : Statement F) (largest : Identifier) (count : Nat) : Prop where
  output_le : st.output ≤ largest
  arguments_le : ∀ a ∈ st.arguments, a.1 ≤ largest
  record_lt : ∀ k, st.kind = .external k → k < count

omit [Scalar F] in
theorem Statement.Within.mono {st : Statement F} {largest largest' : Identifier}
    {count count' : Nat} (h : st.Within largest count) (hlargest : largest ≤ largest')
    (hcount : count ≤ count') : st.Within largest' count' :=
  ⟨h.output_le.trans hlargest, fun a ha => (h.arguments_le a ha).trans hlargest,
    fun k hk => (h.record_lt k hk).trans_le hcount⟩

def Product.Call.Settled (c : Product.Call F) : Prop :=
  ∀ i < c.rows, ∀ j < c.cols,
    isActiveAt c.order c.rows c.inner c.cols c.left c.right i j = true →
    c.results.getD (c.order.offset c.rows c.cols i j) passive ≠ passive

def Record.Within (record : Record F) (traits : Traits) (token : Token) (largest : Identifier) :
    Prop :=
  ∃ (c : Product.Call F) (olds : List F), record.Stores traits token c olds ∧ c.Settled ∧
    ∀ x ∈ c.left ++ c.right, x.identifier ≤ largest

theorem Record.Within.mono {record : Record F} {traits : Traits} {token : Token}
    {largest largest' : Identifier} (h : record.Within traits token largest)
    (hle : largest ≤ largest') : record.Within traits token largest' := by
  obtain ⟨c, olds, hstores, hsettled, hids⟩ := h
  exact ⟨c, olds, hstores, hsettled, fun x hx => (hids x hx).trans hle⟩

namespace Tape

structure Bounded (token : Token) (t : Tape F) : Prop where
  issuer : t.issuer.Bounded
  pending_le : ∀ a ∈ t.pending, a.1 ≤ t.issuer.largest
  log : ∀ st ∈ t.log, st.Within t.issuer.largest t.records.length
  records : ∀ record ∈ t.records, record.Within t.traits token t.issuer.largest

structure Supplies (token : Token) (t : Tape F) (ys : List (Variable F)) (t' : Tape F) : Prop where
  bounded : t'.Bounded token
  largest_le : t.issuer.largest ≤ t'.issuer.largest
  le : ∀ y ∈ ys, y.identifier ≤ t'.issuer.largest

variable {token : Token} {t t' t'' : Tape F} {x y : Variable F} {xs ys : List (Variable F)}

theorem bounded_new (token : Token) (policy : Policy) (kind : TapeKind) :
    (new policy kind : Tape F).Bounded token :=
  ⟨fun _ h => absurd h List.not_mem_nil, fun _ h => absurd h List.not_mem_nil,
    fun _ h => absurd h List.not_mem_nil, fun _ h => absurd h List.not_mem_nil⟩

namespace Bounded

theorem withIssuer (h : t.Bounded token) {m : Issuer} (hm : m.Bounded)
    (hle : t.issuer.largest ≤ m.largest) (hp : m.policy = t.issuer.policy) :
    Bounded token { t with issuer := m } := by
  have htraits : ({ t with issuer := m } : Tape F).traits = t.traits :=
    congrArg (Traits.mk t.hasPrimals) (congrArg Policy.isLinear hp)
  refine ⟨hm, fun a ha => (h.pending_le a ha).trans hle,
    fun st hst => (h.log st hst).mono hle (Nat.le_refl _), fun record hrecord => ?_⟩
  rw [htraits]
  exact (h.records record hrecord).mono hle

theorem withVectors (h : t.Bounded token) {v : Vectors F}
    (hv : v.hasPrimals = t.vectors.hasPrimals) : Bounded token { t with vectors := v } := by
  have htraits : ({ t with vectors := v } : Tape F).traits = t.traits :=
    congrArg (Traits.mk · t.issuer.policy.isLinear) hv
  refine ⟨h.issuer, h.pending_le, h.log, ?_⟩
  rw [htraits]
  exact h.records

theorem stage (h : t.Bounded token) (pool : Pool F) : Bounded token { t with pool := pool } :=
  ⟨h.issuer, h.pending_le, h.log, h.records⟩

theorem addArguments (h : t.Bounded token) {args : List (Identifier × F)}
    (hargs : ∀ a ∈ args, a.1 ≤ t.issuer.largest) : (t.addArguments args).Bounded token := by
  rw [addArguments_eq]
  refine ⟨h.issuer, fun a ha => ?_, h.log, h.records⟩
  rcases List.mem_append.mp ha with ha | ha
  · exact h.pending_le a ha
  · exact hargs a (List.mem_of_mem_filter ha)

theorem append (h : t.Bounded token) {out : Identifier} {kind : StatementKind} (value : F)
    (hout : out ≤ t.issuer.largest) (hkind : ∀ k, kind = .external k → k < t.records.length) :
    (t.append out kind value).Bounded token := by
  have hlogged : Bounded token { t with
      log := t.log ++ [⟨out, kind, t.pending, t.vectors.primals.map fun p =>
        ⟨value, replaced p out⟩⟩]
      pending := [] } := by
    refine ⟨h.issuer, fun a ha => absurd ha List.not_mem_nil, fun st hst => ?_, h.records⟩
    rcases List.mem_append.mp hst with hst | hst
    · exact h.log st hst
    · rw [List.mem_singleton.mp hst]
      exact ⟨hout, h.pending_le, hkind⟩
  exact hlogged.withVectors (Vectors.hasPrimals_setPrimal ..)

theorem record (h : t.Bounded token) {record : Record F}
    (hrecord : record.Within t.traits token t.issuer.largest) :
    (t.withRecord record).Bounded token := by
  have hadded : Bounded token { t with records := t.records ++ [record] } := by
    refine ⟨h.issuer, h.pending_le, fun st hst => (h.log st hst).mono (Nat.le_refl _) (by simp),
      fun stored hstored => ?_⟩
    rcases List.mem_append.mp hstored with hstored | hstored
    · exact h.records stored hstored
    · rw [List.mem_singleton.mp hstored]
      exact hrecord
  apply hadded.append 0 (Nat.zero_le _)
  intro k hk
  cases hk
  simp

end Bounded

theorem Supplies.trans (h : t.Supplies token xs t') (h' : t'.Supplies token ys t'') :
    t.Supplies token ys t'' := ⟨h'.bounded, h.largest_le.trans h'.largest_le, h'.le⟩

theorem Supplies.cons (h : t.Supplies token [y] t') (h' : t'.Supplies token ys t'') :
    t.Supplies token (y :: ys) t'' := by
  refine ⟨h'.bounded, h.largest_le.trans h'.largest_le, fun z hz => ?_⟩
  rcases List.mem_cons.mp hz with rfl | hz
  · exact (h.le _ (List.mem_singleton_self _)).trans h'.largest_le
  · exact h'.le z hz

theorem Supplies.single (h : t'.Bounded token) (hle : t.issuer.largest ≤ t'.issuer.largest)
    (hy : y.identifier ≤ t'.issuer.largest) : t.Supplies token [y] t' := by
  refine ⟨h, hle, fun z hz => ?_⟩
  rw [List.mem_singleton.mp hz]
  exact hy

section Operations

variable (h : t.Bounded token)
include h

theorem release_supplies (hy : t.release x = .ok (y, t')) : t.Supplies token [y] t' := by
  obtain ⟨t₁, h₁, hy⟩ := exists_of_bind_eq_ok hy
  obtain ⟨m, hm, h₁⟩ := exists_of_bind_eq_ok h₁
  cases h₁
  cases hy
  obtain ⟨hbounded, hlargest, hpolicy⟩ := h.issuer.retire hm
  exact .single (h.withIssuer hbounded hlargest.ge hpolicy) hlargest.ge (Nat.zero_le _)

theorem freshOutput_supplies {old : F} (hy : t.freshOutput x = .ok (old, y, t')) :
    t.Supplies token [y] t' ∧ y.identifier ≠ passive := by
  obtain ⟨z, hz, hy⟩ := exists_of_bind_eq_ok hy
  cases hy
  have hgives := h.issuer.exchange hz
  have hissued := h.withIssuer hgives.bounded hgives.largest_le hgives.policy_eq
  refine ⟨.single ?_ hgives.largest_le hgives.le, hgives.ne_passive⟩
  exact hissued.withVectors (Vectors.hasPrimals_map ..)

theorem input_supplies (hy : t.input x = .ok (y, t')) : t.Supplies token [y] t' := by
  obtain ⟨z, hz, hy⟩ := exists_of_bind_eq_ok hy
  cases hy
  have hgives := h.issuer.exchange hz
  have hissued := h.withIssuer hgives.bounded hgives.largest_le hgives.policy_eq
  dsimp only
  split
  case isTrue => exact .single (hissued.append _ hgives.le fun _ hk => by cases hk) hgives.largest_le hgives.le
  case isFalse =>
    exact .single (hissued.withVectors (Vectors.hasPrimals_map ..)) hgives.largest_le hgives.le

theorem assign_supplies {value : F} {args : List (Identifier × F)}
    (hx : x.identifier ≤ t.issuer.largest) (hargs : ∀ a ∈ args, a.1 ≤ t.issuer.largest)
    (hy : t.assign x value args = .ok (y, t')) : t.Supplies token [y] t' := by
  rw [assign] at hy
  split at hy
  case isTrue => exact release_supplies h hy
  case isFalse =>
    cases hy
    have hadded := h.addArguments hargs
    have hissuer : (t.addArguments args).issuer = t.issuer := by rw [addArguments_eq]
    have hgives := hadded.issuer.settle (hissuer ▸ hx)
    have hissued := hadded.withIssuer hgives.bounded hgives.largest_le hgives.policy_eq
    refine .single (hissued.append _ hgives.le fun _ hk => by cases hk) ?_ hgives.le
    exact hissuer ▸ hgives.largest_le

theorem output_supplies (hx : x.identifier ≤ t.issuer.largest) (hy : t.output x = .ok (y, t')) :
    t.Supplies token [y] t' := by
  by_cases hpassive : x.identifier = passive
  · rw [output, if_pos hpassive] at hy
    cases hy
    exact .single h (Nat.le_refl _) hx
  · obtain ⟨m, hm, rfl, rfl⟩ := output_cases hpassive hy
    have hgives := h.issuer.issue
    obtain ⟨hbounded, hlargest, hpolicy⟩ := hgives.bounded.retire hm
    have hle : t.issuer.largest ≤ m.largest := hlargest ▸ hgives.largest_le
    have hissued := h.withIssuer hbounded hle (hpolicy.trans hgives.policy_eq)
    have hpending : Bounded token
        { t with issuer := m, pending := t.pending ++ [(x.identifier, 1)] } := by
      refine ⟨hbounded, fun a ha => ?_, hissued.log, hissued.records⟩
      rcases List.mem_append.mp ha with ha | ha
      · exact hissued.pending_le a ha
      · rw [List.mem_singleton.mp ha]
        exact hx.trans hle
    have hout : t.issuer.issue.1 ≤ m.largest := hlargest ▸ hgives.le
    exact .single (hpending.append _ hout fun _ hk => by cases hk) hle hout

theorem placeOutput_supplies {active : Bool} {old : F}
    (hy : t.placeOutput x active = .ok (old, y, t')) :
    t.Supplies token [y] t' ∧ (active = true → y.identifier ≠ passive) := by
  cases active with
  | true =>
    obtain ⟨hsupplies, hne⟩ := freshOutput_supplies h hy
    exact ⟨hsupplies, fun _ => hne⟩
  | false =>
    obtain ⟨⟨z, t₁⟩, hz, hy⟩ := exists_of_bind_eq_ok hy
    cases hy
    exact ⟨release_supplies h hz, fun hactive => by cases hactive⟩

theorem releaseAll_supplies (hys : t.releaseAll xs = .ok (ys, t')) : t.Supplies token ys t' := by
  induction xs generalizing t ys with
  | nil =>
    cases hys
    exact ⟨h, Nat.le_refl _, fun _ hy => absurd hy List.not_mem_nil⟩
  | cons x xs ih =>
    obtain ⟨⟨y, t₁⟩, hy, hys⟩ := exists_of_bind_eq_ok hys
    obtain ⟨⟨zs, t₂⟩, hzs, hys⟩ := exists_of_bind_eq_ok hys
    cases hys
    have hfirst := release_supplies h hy
    exact hfirst.cons (ih hfirst.bounded hzs)

theorem placeOutputs_supplies {a a' : Staged F} {places : List (Nat × Bool)}
    (hxs : ∀ x ∈ xs, x.identifier ≤ t.issuer.largest)
    (hys : t.placeOutputs xs a places = .ok (ys, a', t')) : t.Supplies token ys t' := by
  induction places generalizing t xs a with
  | nil =>
    cases hys
    exact ⟨h, Nat.le_refl _, hxs⟩
  | cons place places ih =>
    obtain ⟨⟨old, y, t₁⟩, hy, hys⟩ := exists_of_bind_eq_ok hys
    obtain ⟨hfirst, -⟩ := placeOutput_supplies h hy
    refine hfirst.trans (ih hfirst.bounded (fun x hx => ?_) hys)
    rcases List.mem_or_eq_of_mem_set hx with hx | rfl
    · exact (hxs x hx).trans hfirst.largest_le
    · exact hfirst.le _ (List.mem_singleton_self _)

omit h in
theorem getElem?_placeOutputs {a a' : Staged F} {places : List (Nat × Bool)} {p : Nat}
    (hp : p ∉ places.map Prod.fst) (hys : t.placeOutputs xs a places = .ok (ys, a', t')) :
    ys[p]? = xs[p]? := by
  induction places generalizing t xs a with
  | nil =>
    cases hys
    rfl
  | cons place places ih =>
    obtain ⟨⟨old, y, t₁⟩, -, hys⟩ := exists_of_bind_eq_ok hys
    rw [List.map_cons, List.mem_cons, not_or] at hp
    rw [ih hp.2 hys, List.getElem?_set_ne (Ne.symm hp.1)]

theorem placeOutputs_active {a a' : Staged F} {places : List (Nat × Bool)} {p : Nat}
    (hnodup : (places.map Prod.fst).Nodup) (hp : (p, true) ∈ places) (hlt : p < xs.length)
    (hys : t.placeOutputs xs a places = .ok (ys, a', t')) :
    ∃ y, ys[p]? = some y ∧ y.identifier ≠ passive := by
  induction places generalizing t xs a with
  | nil => cases hp
  | cons place places ih =>
    obtain ⟨⟨old, y, t₁⟩, hy, hys⟩ := exists_of_bind_eq_ok hys
    obtain ⟨hfirst, hactive⟩ := placeOutput_supplies h hy
    rw [List.map_cons, List.nodup_cons] at hnodup
    rcases List.mem_cons.mp hp with rfl | hp
    · refine ⟨y, ?_, hactive rfl⟩
      rw [getElem?_placeOutputs hnodup.1 hys, List.getElem?_set_self hlt]
    · exact ih hfirst.bounded hnodup.2 hp (by rwa [List.length_set]) hys

end Operations

end Tape

namespace Product

variable {t t' : Tape F} {kernels : Kernels F} {token : Token} {s : MatrixOrder}
  {rows inner cols : Nat} {a b xs ys : List (Variable F)}

theorem settled_of_placeOutputs (h : t.Bounded token) (hlength : xs.length = rows * cols)
    {sr sr' : Staged F}
    (hys : t.placeOutputs (valued s rows inner cols a b xs) sr (places s rows inner cols a b) =
      .ok (ys, sr', t')) :
    (⟨s, rows, inner, cols, a, b, ys.map Variable.identifier⟩ : Call F).Settled := by
  intro i hi j hj hactive
  have hplace : (s.offset rows cols i j, true) ∈ places s rows inner cols a b :=
    List.mem_map.mpr ⟨(i, j), mem_indexPairs.mpr ⟨hi, hj⟩, Prod.ext rfl hactive⟩
  have hnodup : ((places s rows inner cols a b).map Prod.fst).Nodup := by
    rw [places, List.map_map]
    exact s.nodup_offsets rows cols
  have hlt : s.offset rows cols i j < (valued s rows inner cols a b xs).length := by
    rw [length_valued hlength]
    exact s.offset_lt hi hj
  obtain ⟨y, hy, hne⟩ := Tape.placeOutputs_active h hnodup hplace hlt hys
  rw [List.getD_eq_getElem?_getD, List.getElem?_map, hy]
  exact hne

theorem multiply_supplies [LawfulCells F] (h : t.Bounded token)
    (hfactors : ∀ x ∈ a ++ b, x.identifier ≤ t.issuer.largest)
    (hxs : ∀ x ∈ xs, x.identifier ≤ t.issuer.largest)
    (hys : multiply t kernels token s rows inner cols a b xs = .ok (ys, t')) :
    t.Supplies token ys t' := by
  obtain ⟨hlength, ⟨-, hys⟩ | ⟨-, t₁, record, sr, sr', pool, pool', hplaced, hsame, hstores, -,
    rfl⟩⟩ := exists_placed_of_multiply_eq_ok hys
  · exact Tape.releaseAll_supplies h hys
  · have hstaged := h.stage pool
    have hvalued : ∀ x ∈ valued s rows inner cols a b xs, x.identifier ≤ t.issuer.largest := by
      intro x hx
      obtain ⟨y, hy, heq⟩ := exists_of_mem_withValues hx
      rw [heq]
      exact hxs y hy
    have hsupplies : Tape.Supplies token { t with pool := pool } ys t₁ :=
      Tape.placeOutputs_supplies hstaged hvalued hplaced
    have hwithin : record.Within t₁.traits token t₁.issuer.largest :=
      ⟨_, _, hstores, settled_of_placeOutputs hstaged hlength hplaced,
        fun x hx => (hfactors x hx).trans hsupplies.largest_le⟩
    exact ⟨(hsupplies.bounded.record hwithin).stage pool', hsupplies.largest_le, hsupplies.le⟩

end Product

namespace Recording

variable {token : Token} {r r' : Recording F} {v w : Nat} {y : Variable F} {t : Tape F}

structure Bounded (token : Token) (r : Recording F) : Prop where
  tape : r.tape.Bounded token
  vars_le : ∀ x ∈ r.vars, x.identifier ≤ r.tape.issuer.largest

namespace Bounded

theorem get_le (h : r.Bounded token) (v : Nat) :
    (r.get v).identifier ≤ r.tape.issuer.largest := by
  rw [Recording.get, List.getD_eq_getElem?_getD]
  cases hv : r.vars[v]? with
  | none => exact Nat.zero_le _
  | some x => exact h.vars_le x (List.mem_of_getElem? hv)

theorem getAll_le (h : r.Bounded token) (vs : List Nat) :
    ∀ x ∈ r.getAll vs, x.identifier ≤ r.tape.issuer.largest := by
  intro x hx
  obtain ⟨v, -, rfl⟩ := List.mem_map.mp hx
  exact h.get_le v

theorem set (h : r.Bounded token) (hy : y.identifier ≤ r.tape.issuer.largest) :
    (r.set v y).Bounded token := by
  refine ⟨h.tape, fun x hx => ?_⟩
  rcases List.mem_or_eq_of_mem_set hx with hx | rfl
  · exact h.vars_le x hx
  · exact hy

theorem withTape (h : r.Bounded token) {ys : List (Variable F)}
    (ht : r.tape.Supplies token ys t) : (r.withTape t).Bounded token :=
  ⟨ht.bounded, fun x hx => (h.vars_le x hx).trans ht.largest_le⟩

theorem setAll (h : r.Bounded token) {vs : List Nat} {ys : List (Variable F)}
    (hys : ∀ y ∈ ys, y.identifier ≤ r.tape.issuer.largest) : (r.setAll vs ys).Bounded token := by
  induction vs generalizing r ys with
  | nil => exact h
  | cons v vs ih =>
    cases ys with
    | nil => exact h
    | cons y ys =>
      exact ih (h.set (hys y List.mem_cons_self)) fun z hz => hys z (List.mem_cons_of_mem y hz)

theorem setResult (h : r.Bounded token) (ht : r.tape.Supplies token [y] t) :
    (r.setResult v (y, t)).2.Bounded token :=
  (h.withTape ht).set (ht.le y (List.mem_singleton_self y))

end Bounded

theorem bounded_fresh (token : Token) (policy : Policy) (kind : TapeKind) (values : Fin n → F) :
    (fresh policy kind values).Bounded token := by
  refine ⟨Tape.bounded_new token policy kind, fun x hx => ?_⟩
  obtain ⟨v, rfl⟩ := (List.mem_ofFn' _ _).mp hx
  exact Nat.zero_le _

end Recording

namespace Transfer

variable {c : Catalogue F} {r r' : Recording F} {x : Transfer F n}

theorem bounded [LawfulCells F] (h : r.Bounded (c.token .product)) (hr : x.apply c r = .ok r') :
    r'.Bounded (c.token .product) := by
  cases x with
  | create v =>
    cases hr
    have hgives := h.tape.issuer.issue
    have hissued := h.tape.withIssuer hgives.bounded hgives.largest_le hgives.policy_eq
    have hsupplies : r.tape.Supplies (c.token .product) [] { r.tape with issuer := _ } :=
      ⟨hissued, hgives.largest_le, fun _ hy => absurd hy List.not_mem_nil⟩
    exact (h.withTape hsupplies).set hgives.le
  | copy u v =>
    cases hr
    exact h.set (h.get_le u)
  | externalOutput v =>
    obtain ⟨⟨note, r₁⟩, h₁, hr⟩ := exists_of_bind_eq_ok hr
    obtain ⟨⟨old, y, t⟩, hy, h₁⟩ := exists_of_bind_eq_ok h₁
    cases h₁
    cases hr
    exact h.setResult (Tape.freshOutput_supplies h.tape hy).1
  | instruct i =>
    obtain ⟨⟨note, r₁⟩, h₁, hr⟩ := exists_of_bind_eq_ok hr
    cases hr
    cases i with
    | line l =>
      cases l with
      | constant v value =>
        cases h₁
        exact h.set (Nat.zero_le _)
      | assign v value args =>
        obtain ⟨⟨y, t⟩, hy, h₁⟩ := exists_of_bind_eq_ok h₁
        cases h₁
        refine h.setResult (Tape.assign_supplies h.tape (h.get_le v) (fun a ha => ?_) hy)
        obtain ⟨ref, href, rfl⟩ := List.mem_map.mp ha
        obtain ⟨arg, -, rfl⟩ := List.mem_map.mp href
        exact h.get_le arg.1
      | output v =>
        obtain ⟨⟨y, t⟩, hy, h₁⟩ := exists_of_bind_eq_ok h₁
        cases h₁
        exact h.setResult (Tape.output_supplies h.tape (h.get_le v) hy)
      | release v =>
        obtain ⟨⟨y, t⟩, hy, h₁⟩ := exists_of_bind_eq_ok h₁
        cases h₁
        exact h.setResult (Tape.release_supplies h.tape hy)
    | input v =>
      obtain ⟨⟨y, t⟩, hy, h₁⟩ := exists_of_bind_eq_ok h₁
      cases h₁
      exact h.setResult (Tape.input_supplies h.tape hy)
    | multiply p =>
      obtain ⟨⟨ys, t⟩, hys, h₁⟩ := exists_of_bind_eq_ok h₁
      cases h₁
      have hfactors : ∀ x ∈ r.getAll (p.left.map Fin.val) ++ r.getAll (p.right.map Fin.val),
          x.identifier ≤ r.tape.issuer.largest := by
        intro x hx
        rcases List.mem_append.mp hx with hx | hx
        · exact h.getAll_le _ x hx
        · exact h.getAll_le _ x hx
      have hsupplies := Product.multiply_supplies h.tape hfactors (h.getAll_le _) hys
      exact (h.withTape hsupplies).setAll hsupplies.le

theorem lent_eq [LawfulCells F] (hr : x.apply c r = .ok r') :
    r'.tape.pool.lent = r.tape.pool.lent := by
  cases x with
  | create v =>
    cases hr
    rfl
  | copy u v =>
    cases hr
    rfl
  | externalOutput v =>
    obtain ⟨⟨note, r₁⟩, h₁, hr⟩ := exists_of_bind_eq_ok hr
    obtain ⟨⟨old, y, t⟩, hy, h₁⟩ := exists_of_bind_eq_ok h₁
    cases h₁
    cases hr
    exact congrArg Pool.lent (Tape.freshOutput_sameLog hy).pool_eq
  | instruct i =>
    obtain ⟨⟨note, r₁⟩, h₁, hr⟩ := exists_of_bind_eq_ok hr
    cases hr
    cases i with
    | line l =>
      cases l with
      | constant v value =>
        cases h₁
        rfl
      | assign v value args =>
        obtain ⟨⟨y, t⟩, hy, h₁⟩ := exists_of_bind_eq_ok h₁
        cases h₁
        rw [Tape.assign] at hy
        split at hy
        · exact congrArg Pool.lent (Tape.release_sameLog hy).pool_eq
        · cases hy
          rw [Tape.addArguments_eq]
          rfl
      | output v =>
        obtain ⟨⟨y, t⟩, hy, h₁⟩ := exists_of_bind_eq_ok h₁
        cases h₁
        by_cases hpassive : (r.get v).identifier = passive
        · rw [Tape.output, if_pos hpassive] at hy
          cases hy
          rfl
        · obtain ⟨m, -, rfl, rfl⟩ := Tape.output_cases hpassive hy
          rfl
      | release v =>
        obtain ⟨⟨y, t⟩, hy, h₁⟩ := exists_of_bind_eq_ok h₁
        cases h₁
        exact congrArg Pool.lent (Tape.release_sameLog hy).pool_eq
    | input v =>
      obtain ⟨⟨y, t⟩, hy, h₁⟩ := exists_of_bind_eq_ok h₁
      obtain ⟨z, -, hy⟩ := exists_of_bind_eq_ok hy
      cases h₁
      cases hy
      change Pool.lent (Tape.pool (if _ then _ else _)) = _
      split <;> rfl
    | multiply p =>
      obtain ⟨⟨ys, t⟩, hys, h₁⟩ := exists_of_bind_eq_ok h₁
      cases h₁
      rw [Recording.setAll_tape]
      rcases Product.of_multiply_eq_ok hys with ⟨-, hsame⟩ | ⟨-, -, -, -, pool', -, -, -, hl, rfl⟩
      · exact congrArg Pool.lent hsame.pool_eq
      · exact hl

def applyAll (c : Catalogue F) (r : Recording F) (xs : List (Transfer F n)) :
    Except Fault (Recording F) := xs.foldlM (apply c) r

variable {xs : List (Transfer F n)}

theorem applyAll_bounded [LawfulCells F] (h : r.Bounded (c.token .product))
    (hr : applyAll c r xs = .ok r') : r'.Bounded (c.token .product) :=
  foldlM_invariant (fun _ _ _ _ h hx => bounded h hx) h hr

theorem applyAll_lent_eq [LawfulCells F] (hr : applyAll c r xs = .ok r') :
    r'.tape.pool.lent = r.tape.pool.lent :=
  foldlM_invariant (P := fun r₁ : Recording F => r₁.tape.pool.lent = r.tape.pool.lent)
    (fun _ _ _ _ h hx => (lent_eq hx).trans h) rfl hr

end Transfer

end Autodiff
