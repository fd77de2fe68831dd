import Autodiff.Proofs.Exclusivity

namespace Autodiff.Issuer

variable {n : ℕ} {m m' : Issuer} {id : Identifier}

structure Holding (n : ℕ) where
  issuer : Issuer
  ids : Fin n → Identifier

inductive Use (n : ℕ) where
  | issue (v : Fin n)
  | retire (v : Fin n)
  | settle (v : Fin n)
  | exchange (v : Fin n)

namespace Holding

variable {s s' : Holding n}

def new (policy : Policy) : Holding n := ⟨.new policy, fun _ => passive⟩

def live (s : Holding n) : ℕ := (held s.ids).length

/-- What follows one use: the largest identifier is the old one or the number held, if that is
more. -/
structure Rises (s s' : Holding n) : Prop where
  policy_eq : s'.issuer.policy = s.issuer.policy
  parts : s'.issuer.Parts s'.ids
  largest_eq : s'.issuer.largest = max s.issuer.largest s'.live

theorem live_add_unused (hp : s.issuer.policy = .reuse) (h : s.issuer.Parts s.ids) :
    s.live + s.issuer.unused.length = s.issuer.largest := h.length_held hp

theorem live_le (hp : s.issuer.policy = .reuse) (h : s.issuer.Parts s.ids) :
    s.live ≤ s.issuer.largest := by
  rw [← live_add_unused hp h]
  exact Nat.le_add_right ..

theorem live_new : (new .reuse : Holding n).live = 0 :=
  Nat.le_zero.mp (live_le rfl (parts_new .reuse))

end Holding

theorem issue_grows (m : Issuer) : m.issue.2.largest = m.largest ∨ m.issue.2.unused = [] := by
  unfold issue
  cases hu : m.unused with
  | nil => exact .inr rfl
  | cons => exact .inl rfl

theorem largest_retire (h : m.retire id = .ok m') : m'.largest = m.largest := by
  unfold retire at h
  split at h
  · cases h
    rfl
  · split at h
    · cases h
      rfl
    · split at h
      · cases h
        rfl
      · cases h

theorem settle_grows (m : Issuer) (id : Identifier) :
    (m.settle id).2.largest = m.largest ∨ (m.settle id).2.unused = [] := by
  unfold settle
  split
  · exact issue_grows m
  · split
    · exact issue_grows m
    · exact .inl rfl

theorem exchange_grows {x : Identifier × Issuer} (h : m.exchange id = .ok x) :
    x.2.largest = m.largest ∨ x.2.unused = [] := by
  obtain ⟨m₁, h₁, hx⟩ := exists_of_bind_eq_ok h
  cases hx
  rw [← largest_retire h₁]
  exact issue_grows m₁

namespace Use

variable {s : Holding n} {u : Use n}

def apply : Use n → Holding n → Except Fault (Holding n)
  | issue v, s => .ok ⟨s.issuer.issue.2, Function.update s.ids v s.issuer.issue.1⟩
  | retire v, s => do
    let m ← s.issuer.retire (s.ids v)
    return ⟨m, Function.update s.ids v passive⟩
  | settle v, s =>
    .ok ⟨(s.issuer.settle (s.ids v)).2, Function.update s.ids v (s.issuer.settle (s.ids v)).1⟩
  | exchange v, s => do
    let (id, m) ← s.issuer.exchange (s.ids v)
    return ⟨m, Function.update s.ids v id⟩

def Careful (s : Holding n) : Use n → Prop
  | issue v => s.ids v = passive
  | _ => True

theorem apply_hands (h : s.issuer.Parts s.ids) (hu : u.Careful s) :
    Yields (u.apply s) fun s' => s.issuer.Handover s.ids s'.issuer s'.ids ∧
      (s'.issuer.largest = s.issuer.largest ∨ s'.issuer.unused = []) := by
  cases u with
  | issue v => exact .ok ⟨.take h.lends hu, issue_grows _⟩
  | retire v =>
    obtain ⟨m, hm, hover⟩ := Handover.give h.lends fun _ => h.sole v
    refine ⟨⟨m, Function.update s.ids v passive⟩, ?_, hover, .inl (largest_retire hm)⟩
    rw [apply, hm]
    rfl
  | settle v => exact .ok ⟨.settle h.lends v, settle_grows _ _⟩
  | exchange v =>
    obtain ⟨⟨id, m⟩, hm, hover⟩ := Handover.exchange h.lends fun _ => h.sole v
    refine ⟨⟨m, Function.update s.ids v id⟩, ?_, hover, exchange_grows hm⟩
    rw [apply, hm]
    rfl

theorem apply_rises (hp : s.issuer.policy = .reuse) (h : s.issuer.Parts s.ids)
    (hu : u.Careful s) : Yields (u.apply s) s.Rises := by
  apply (apply_hands h hu).mono
  rintro s' ⟨hover, hgrows⟩
  have hparts := h.handover hover
  have hlive := Holding.live_add_unused (hover.policy_eq.trans hp) hparts
  refine ⟨hover.policy_eq, hparts, ?_⟩
  rcases hgrows with hsame | hnone
  · rw [hsame] at hlive ⊢
    exact (max_eq_left (Nat.le.intro hlive)).symm
  · rw [hnone, List.length_nil, Nat.add_zero] at hlive
    rw [hlive]
    exact (max_eq_right hover.largest_le).symm

def passes : List (Use n) → Holding n → Except Fault (List (Holding n))
  | [], s => .ok [s]
  | u :: us, s => do
    let s' ← u.apply s
    let later ← passes us s'
    return s :: later

def Orderly : List (Use n) → Holding n → Prop
  | [], _ => True
  | u :: us, s => u.Careful s ∧
    match u.apply s with
    | .ok s' => Orderly us s'
    | .error _ => True

instance (s : Holding n) : (u : Use n) → Decidable (u.Careful s)
  | issue v => inferInstanceAs (Decidable (s.ids v = passive))
  | retire _ | settle _ | exchange _ => .isTrue trivial

instance decidableOrderly : (us : List (Use n)) → (s : Holding n) → Decidable (Orderly us s)
  | [], _ => .isTrue trivial
  | u :: us, s =>
    have : Decidable (match u.apply s with
        | .ok s' => Orderly us s'
        | .error _ => True) :=
      match u.apply s with
      | .ok s' => decidableOrderly us s'
      | .error _ => .isTrue trivial
    inferInstanceAs (Decidable (_ ∧ _))

theorem passes_rises {us : List (Use n)} (hp : s.issuer.policy = .reuse)
    (h : s.issuer.Parts s.ids) (hus : Orderly us s) :
    Yields (passes us s) fun states => states.length = us.length + 1 ∧
      states.head? = some s ∧ states.IsChain Holding.Rises := by
  induction us generalizing s with
  | nil => exact .ok ⟨rfl, rfl, .singleton s⟩
  | cons u us ih =>
    obtain ⟨s', hs', hrises⟩ := apply_rises hp h hus.1
    have hlater := hus.2
    rw [hs'] at hlater
    obtain ⟨later, hpasses, hlength, hhead, hchain⟩ :=
      ih (hrises.policy_eq.trans hp) hrises.parts hlater
    refine ⟨s :: later, ?_, congrArg Nat.succ hlength, rfl, ?_⟩
    · rw [passes, hs']
      change passes us s' >>= _ = _
      rw [hpasses]
      rfl
    · refine hchain.cons fun q hq => ?_
      obtain rfl := Option.some.inj (hhead.symm.trans hq)
      exact hrises

end Use

namespace Holding

variable {F : Type} [Scalar F] {states passed later : List (Holding n)} {s first : Holding n}

def peak (states : List (Holding n)) : Option ℕ := (states.map live).max?

theorem peak_concat {k : ℕ} (h : peak states = some k) (s : Holding n) :
    peak (states ++ [s]) = some (max k s.live) := by
  obtain ⟨hmem, hle⟩ := List.max?_eq_some_iff.mp h
  rw [peak, List.max?_eq_some_iff, List.map_append, List.map_singleton]
  constructor
  · rw [List.mem_append, List.mem_singleton]
    rcases max_choice k s.live with hk | hlive
    · left
      rwa [hk]
    · exact .inr hlive
  · intro b hb
    rcases List.mem_append.mp hb with hb | hb
    · exact (hle b hb).trans (le_max_left ..)
    · rw [List.mem_singleton.mp hb]
      exact le_max_right ..

theorem peak_eq (hfirst : first.issuer.largest = first.live)
    (hhead : (passed ++ s :: later).head? = some first)
    (hchain : (passed ++ s :: later).IsChain Rises) :
    peak (passed ++ [s]) = some s.issuer.largest := by
  induction passed using List.reverseRecOn generalizing s later with
  | nil =>
    obtain rfl := Option.some.inj hhead
    rw [hfirst]
    rfl
  | append_singleton passed q ih =>
    rw [List.append_assoc, List.singleton_append] at hhead hchain
    have hrises := (List.isChain_append_cons_cons.mp hchain).2.1
    rw [peak_concat (ih hhead hchain), hrises.largest_eq]

theorem largest_le_of_rises (hchain : (passed ++ s :: later).IsChain Rises) :
    ∀ q ∈ passed ++ [s], q.issuer.largest ≤ s.issuer.largest := by
  induction passed using List.reverseRecOn generalizing s later with
  | nil =>
    intro q hq
    rw [List.mem_singleton.mp hq]
  | append_singleton passed q ih =>
    rw [List.append_assoc, List.singleton_append] at hchain
    have hrises := (List.isChain_append_cons_cons.mp hchain).2.1
    intro o ho
    rcases List.mem_append.mp ho with ho | ho
    · apply (ih hchain o ho).trans
      rw [hrises.largest_eq]
      exact le_max_left ..
    · rw [List.mem_singleton.mp ho]

def vector (moments : List (Holding n)) : Slots F :=
  moments.foldl (fun v s => v.ensure s.issuer.largest) .new

theorem size_vector_le {moments : List (Holding n)} {k : ℕ}
    (h : ∀ s ∈ moments, s.issuer.largest ≤ k) : (vector moments : Slots F).size ≤ k + 1 := by
  rw [vector]
  apply List.foldlRecOn moments _ (motive := fun v : Slots F => v.size ≤ k + 1)
  · exact Nat.le_add_left 1 k
  · intro v hv s hs
    rw [Slots.size_ensure]
    exact max_le hv (Nat.succ_le_succ (h s hs))

end Holding

namespace Use

/-- At every moment a reusing issuer has issued as many identifiers as were held at one time, and no
vector that was sized from it has more than one slot in addition. -/
theorem largest_eq_peak (F : Type) [Scalar F] {us : List (Use n)} (hus : Orderly us (.new .reuse)) :
    Yields (passes us (.new .reuse)) fun states => states.length = us.length + 1 ∧
      ∀ passed s later, states = passed ++ s :: later →
        Holding.peak (passed ++ [s]) = some s.issuer.largest ∧
        ∀ moments ⊆ passed ++ [s],
          (Holding.vector moments : Slots F).size ≤ s.issuer.largest + 1 := by
  apply (passes_rises rfl (parts_new .reuse) hus).mono
  rintro states ⟨hlength, hhead, hchain⟩
  refine ⟨hlength, ?_⟩
  rintro passed s later rfl
  refine ⟨Holding.peak_eq Holding.live_new.symm hhead hchain, fun moments hmoments => ?_⟩
  apply Holding.size_vector_le
  intro q hq
  exact Holding.largest_le_of_rises hchain q (hmoments hq)

theorem largest_eq_peak_recycled : ∃ states,
    passes [issue 0, issue 1, retire 0, settle 2, settle 2, exchange 1, issue 0, retire 2]
      (.new .reuse : Holding 3) = .ok states ∧
    states.map Holding.live = [0, 1, 2, 1, 2, 2, 2, 3, 2] ∧
    ∀ passed s later, states = passed ++ s :: later →
      Holding.peak (passed ++ [s]) = some s.issuer.largest ∧
      ∀ moments ⊆ passed ++ [s],
        (Holding.vector moments : Slots Int).size ≤ s.issuer.largest + 1 := by
  have horderly : Orderly [issue 0, issue 1, retire 0, settle 2, settle 2, exchange 1, issue 0,
      retire 2] (Holding.new .reuse : Holding 3) := by decide
  obtain ⟨states, hstates, -, hpeak⟩ := largest_eq_peak Int horderly
  refine ⟨states, hstates, ?_, hpeak⟩
  cases hstates
  rfl

end Use

end Autodiff.Issuer
