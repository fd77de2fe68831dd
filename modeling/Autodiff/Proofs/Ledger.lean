import Autodiff.Proofs.ProductRecording
import Autodiff.Proofs.Transposition
import Autodiff.Recording
/-!
Programs over variables that are never copied. A ledger follows such a program: it knows which
identifier each variable has, and lists the events behind the log.
-/

namespace Autodiff

inductive Line (F : Type) (n : Nat)
  | constant (v : Fin n) (value : F)
  | assign (v : Fin n) (value : F) (args : List (Fin n × F))
  | output (v : Fin n)
  | release (v : Fin n)

/-- A matrix product of variables. Only the variables of the factors may repeat. -/
structure ProductRef (n : Nat) where
  order : MatrixOrder
  rows : Nat
  inner : Nat
  cols : Nat
  left : List (Fin n)
  right : List (Fin n)
  results : List (Fin n)
  length_left : left.length = rows * inner
  length_right : right.length = inner * cols
  length_results : results.length = rows * cols
  nodup : results.Nodup

inductive Instruction (F : Type) (n : Nat)
  | line (l : Line F n)
  | input (v : Fin n)
  | multiply (p : ProductRef n)

variable {F : Type} {n : Nat}

def Line.operation : Line F n → Operation F
  | constant v value => .constant v value
  | assign v value args => .assign v value (args.map fun a => (.variable a.1, a.2))
  | output v => .output v
  | release v => .release v

def Instruction.operation : Instruction F n → Operation F
  | line l => l.operation
  | input v => .input v
  | multiply p => .multiply p.order p.rows p.inner p.cols (p.left.map Fin.val)
      (p.right.map Fin.val) (p.results.map Fin.val)

structure Ledger (F : Type) (n : Nat) where
  issuer : Issuer
  vars : Fin n → Variable F
  history : History F

namespace Ledger

def new [Scalar F] (policy : Policy) (values : Fin n → F) : Ledger F n :=
  ⟨.new policy, fun v => .constant (values v), []⟩

def ids (σ : Ledger F n) (v : Fin n) : Identifier := (σ.vars v).identifier

def put (σ : Ledger F n) (m : Issuer) (v : Fin n) (y : Variable F) : Ledger F n :=
  ⟨m, Function.update σ.vars v y, σ.history⟩

def log (σ : Ledger F n) (e : Event F) : Ledger F n := { σ with history := σ.history ++ [e] }

def release (σ : Ledger F n) (v : Fin n) (value : F) : Except Fault (Ledger F n) := do
  let m ← σ.issuer.retire (σ.ids v)
  return σ.put m v (.constant value)

def renew (σ : Ledger F n) (v : Fin n) : Except Fault (Ledger F n) := do
  let (id, m) ← σ.issuer.exchange (σ.ids v)
  return σ.put m v ⟨(σ.vars v).value, id⟩

def arguments (σ : Ledger F n) (args : List (Fin n × F)) : List (Identifier × F) :=
  args.map fun a => (σ.ids a.1, a.2)

def active (args : List (Identifier × F)) : List (Identifier × F) :=
  args.filter fun a => a.1 != passive

variable [Scalar F]

def line (σ : Ledger F n) : Line F n → Except Fault (Ledger F n)
  | .constant v value => .ok (σ.put σ.issuer v (.constant value))
  | .assign v value args =>
    if (σ.arguments args).all fun a => a.1 == passive then σ.release v value
    else
      let (id, m) := σ.issuer.settle (σ.ids v)
      .ok ((σ.put m v ⟨value, id⟩).log (.elementary id (active (σ.arguments args)) value))
  | .output v =>
    if σ.ids v = passive then .ok σ
    else do
      let (id, m) := σ.issuer.issue
      let m ← m.retire (σ.ids v)
      let value := (σ.vars v).value
      return (σ.put m v ⟨value, id⟩).log (.elementary id [(σ.ids v, 1)] value)
  | .release v => σ.release v (σ.vars v).value

def call (σ : Ledger F n) (p : ProductRef n) (results : List Identifier) : Product.Call F :=
  ⟨p.order, p.rows, p.inner, p.cols, p.left.map σ.vars, p.right.map σ.vars, results⟩

def isActive (σ : Ledger F n) (p : ProductRef n) : Bool :=
  (p.left.map σ.vars).any Variable.isActive || (p.right.map σ.vars).any Variable.isActive

def setValues (σ : Ledger F n) (vs : List (Fin n)) (xs : List F) : Ledger F n :=
  (vs.zip xs).foldl (fun σ vx => σ.put σ.issuer vx.1 ⟨vx.2, σ.ids vx.1⟩) σ

def placings (σ : Ledger F n) (p : ProductRef n) : List (Fin n × Bool) :=
  if σ.isActive p then
    (Product.places p.order p.rows p.inner p.cols (p.left.map σ.vars)
      (p.right.map σ.vars)).filterMap fun place => p.results[place.1]?.map fun v => (v, place.2)
  else p.results.map fun v => (v, false)

def place (σ : Ledger F n) (place : Fin n × Bool) : Except Fault (Ledger F n) :=
  if place.2 then σ.renew place.1 else σ.release place.1 (σ.vars place.1).value

def multiply (σ : Ledger F n) (p : ProductRef n) : Except Fault (Ledger F n) := do
  let σ' ← (σ.placings p).foldlM place (σ.setValues p.results (σ.call p []).values)
  return if σ.isActive p then σ'.log (.product (σ.call p (p.results.map σ'.ids))) else σ'

def step (σ : Ledger F n) : Instruction F n → Except Fault (Ledger F n)
  | .line l => σ.line l
  | .input v => do
    let σ' ← σ.renew v
    return σ'.log (.input (σ'.ids v) (σ.vars v).value)
  | .multiply p => σ.multiply p

end Ledger

namespace History

variable [Scalar F] {es : History F} {e : Event F} {x : Variable F}

def Holds (es : History F) (x : Variable F) : Prop :=
  x.identifier ≠ passive →
    x.identifier ∈ (writes es).map Prod.fst ∧ primals es x.identifier = x.value

theorem holds_of_passive (h : x.identifier = passive) : Holds es x := fun hx => absurd h hx

theorem writes_singleton (e : Event F) : writes [e] = e.writes := by simp [writes]

theorem writes_append (es : History F) (e : Event F) :
    writes (es ++ [e]) = writes es ++ e.writes := by
  simp [writes]

theorem distinct_append {es' : History F} {largest : Identifier}
    (h : DistinctActive ((writes es).map Prod.fst)) (h' : DistinctActive ((writes es').map Prod.fst))
    (hle : ∀ w ∈ writes es, w.1 ≤ largest)
    (hfresh : ∀ w ∈ writes es', w.1 = passive ∨ largest < w.1) :
    DistinctActive ((writes (es ++ es')).map Prod.fst) := by
  rw [writes, List.flatMap_append, List.map_append]
  refine List.pairwise_append.mpr ⟨h, h', ?_⟩
  intro i hi j hj hne hij
  obtain ⟨w, hw, rfl⟩ := List.mem_map.mp hi
  obtain ⟨u, hu, rfl⟩ := List.mem_map.mp hj
  have hold := hle w hw
  rcases hfresh u hu with hpassive | hnew
  · exact hne (hij.trans hpassive)
  · rw [hij] at hold
    exact absurd hnew (not_lt.mpr hold)

theorem writes_le_append {es' : History F} {largest largest' : Identifier}
    (hle : ∀ w ∈ writes es, w.1 ≤ largest) (hlargest : largest ≤ largest')
    (hle' : ∀ w ∈ writes es', w.1 = passive ∨ w.1 ≤ largest') :
    ∀ w ∈ writes (es ++ es'), w.1 ≤ largest' := by
  intro w hw
  rw [writes, List.flatMap_append] at hw
  rcases List.mem_append.mp hw with hw | hw
  · exact (hle w hw).trans hlargest
  · rcases hle' w hw with hpassive | hle'
    · rw [hpassive]
      exact Nat.zero_le _
    · exact hle'

theorem Holds.append_of_notMem (h : Holds es x) (he : x.identifier ∉ e.writes.map Prod.fst) :
    Holds (es ++ [e]) x := by
  intro hx
  obtain ⟨hmem, hvalue⟩ := h hx
  constructor
  · rw [writes_append, List.map_append]
    exact List.mem_append_left _ hmem
  · rw [primals_append, Event.redo, overwrite_of_notMem _ he]
    exact hvalue

theorem holds_append_of_mem (hd : DistinctActive (e.writes.map Prod.fst))
    (he : (x.identifier, x.value) ∈ e.writes) : Holds (es ++ [e]) x := by
  intro hx
  constructor
  · rw [writes_append, List.map_append]
    exact List.mem_append_right _ (List.mem_map_of_mem he)
  · rw [primals_append, Event.redo]
    exact overwrite_of_mem _ hd he hx

end History

namespace Ledger

open History

variable [Scalar F] {σ σ' : Ledger F n}

omit [Scalar F] in
theorem ids_put (σ : Ledger F n) (m : Issuer) (v : Fin n) (y : Variable F) :
    (σ.put m v y).ids = Function.update σ.ids v y.identifier := by
  funext w
  by_cases hw : w = v
  · simp [ids, put, hw]
  · simp [ids, put, hw]

structure Sound (σ : Ledger F n) : Prop where
  guards : σ.issuer.Guards σ.ids
  holds : ∀ v, Holds σ.history (σ.vars v)
  regular : ∀ e ∈ σ.history, e.Regular
  known : ∀ es c, es ++ [.product c] <+: σ.history → ∀ x ∈ c.left ++ c.right, Holds es x
  distinct : σ.issuer.policy = .linear → DistinctActive ((writes σ.history).map Prod.fst)
  writes_le : σ.issuer.policy = .linear → ∀ w ∈ writes σ.history, w.1 ≤ σ.issuer.largest

theorem sound_new (policy : Policy) (values : Fin n → F) : (new policy values).Sound where
  guards := Issuer.guards_new policy
  holds _ := holds_of_passive rfl
  regular _ h := absurd h List.not_mem_nil
  known es c h := by simp [new] at h
  distinct _ := List.Pairwise.nil
  writes_le _ _ h := absurd h List.not_mem_nil

namespace Sound

theorem keep (h : σ.Sound) (hguards : σ'.issuer.Guards σ'.ids)
    (hpolicy : σ'.issuer.policy = σ.issuer.policy) (hlargest : σ.issuer.largest ≤ σ'.issuer.largest)
    (hhistory : σ'.history = σ.history)
    (hvars : ∀ v, σ'.ids v = passive ∨ σ'.vars v = σ.vars v) : σ'.Sound where
  guards := hguards
  holds v := by
    rw [hhistory]
    rcases hvars v with hv | hv
    · exact holds_of_passive hv
    · rw [hv]
      exact h.holds v
  regular := by
    rw [hhistory]
    exact h.regular
  known := by
    rw [hhistory]
    exact h.known
  distinct := by
    rw [hhistory, hpolicy]
    exact h.distinct
  writes_le hl w hw := by
    rw [hhistory] at hw
    exact (h.writes_le (hpolicy.symm.trans hl) w hw).trans hlargest

theorem extend {e : Event F} (h : σ.Sound) (hguards : σ'.issuer.Guards σ'.ids)
    (hpolicy : σ'.issuer.policy = σ.issuer.policy) (hlargest : σ.issuer.largest ≤ σ'.issuer.largest)
    (hhistory : σ'.history = σ.history ++ [e]) (hregular : e.Regular)
    (hdistinct : DistinctActive (e.writes.map Prod.fst))
    (hvars : ∀ v, σ'.ids v = passive ∨
      (σ'.vars v = σ.vars v ∧ σ'.ids v ∉ e.writes.map Prod.fst) ∨
      (σ'.ids v, (σ'.vars v).value) ∈ e.writes)
    (hfresh : σ.issuer.policy = .linear → ∀ w ∈ e.writes,
      w.1 = passive ∨ σ.issuer.largest < w.1 ∧ w.1 ≤ σ'.issuer.largest)
    (hknown : ∀ c, e = .product c → ∀ x ∈ c.left ++ c.right, Holds σ.history x) : σ'.Sound where
  guards := hguards
  holds v := by
    rw [hhistory]
    rcases hvars v with hv | ⟨hv, hnot⟩ | hmem
    · exact holds_of_passive hv
    · exact Holds.append_of_notMem (hv ▸ h.holds v) hnot
    · exact holds_append_of_mem hdistinct hmem
  regular e' he' := by
    rw [hhistory] at he'
    rcases List.mem_append.mp he' with he' | he'
    · exact h.regular e' he'
    · rw [List.mem_singleton.mp he']
      exact hregular
  known es c hp := by
    rw [hhistory, List.prefix_concat_iff] at hp
    rcases hp with hp | hp
    · obtain ⟨rfl, hc⟩ := List.append_inj' hp rfl
      exact hknown c (List.singleton_inj.mp hc).symm
    · exact h.known es c hp
  distinct hl := by
    have hl' := hpolicy.symm.trans hl
    rw [hhistory]
    -- A linear issuer has never issued an identifier beyond its largest one.
    rw [← writes_singleton] at hdistinct hfresh
    exact distinct_append (h.distinct hl') hdistinct (h.writes_le hl') fun w hw =>
      (hfresh hl' w hw).imp_right And.left
  writes_le hl := by
    have hl' := hpolicy.symm.trans hl
    rw [hhistory]
    rw [← writes_singleton] at hfresh
    exact writes_le_append (h.writes_le hl') hlargest fun w hw =>
      (hfresh hl' w hw).imp_right And.right

theorem grant {e : Event F} {x : Identifier × Issuer} (h : σ.Sound) (v : Fin n) (value : F)
    (hx : σ.issuer.Grants σ.ids v x) (hw : e.writes = [(x.1, value)]) (hregular : e.Regular)
    (hproduct : ∀ c, e ≠ .product c) : ((σ.put x.2 v ⟨value, x.1⟩).log e).Sound := by
  have hids : ((σ.put x.2 v ⟨value, x.1⟩).log e).ids = Function.update σ.ids v x.1 :=
    ids_put σ x.2 v ⟨value, x.1⟩
  have hguards := hx.guards
  rw [← hids] at hguards
  have hv : ((σ.put x.2 v ⟨value, x.1⟩).log e).ids v = x.1 := by rw [hids, Function.update_self]
  refine h.extend hguards hx.policy_eq hx.largest_le rfl hregular ?_ (fun w => ?_)
    (fun hl u hu => ?_) fun c hc => absurd hc (hproduct c)
  · rw [hw]
    exact List.pairwise_singleton ..
  · by_cases hwv : w = v
    · subst hwv
      right
      right
      rw [hv, hw]
      simp [log, put]
    · right
      left
      have hne := hguards.distinct v w (Ne.symm hwv) (by rw [hv]; exact hx.ne_passive)
      constructor
      · simp [log, put, hwv]
      · rw [hv] at hne
        rw [hw]
        simpa using hne.symm
  · rw [hw] at hu
    obtain rfl := List.mem_singleton.mp hu
    right
    constructor
    · exact hx.fresh hl
    · have hle := hguards.held_le v
      rw [hv] at hle
      exact hle

theorem putPassive (h : σ.Sound) (v : Fin n) {y : Variable F} (hy : y.identifier = passive)
    {m : Issuer} (hm : m.Guards (Function.update σ.ids v passive))
    (hpolicy : m.policy = σ.issuer.policy) (hlargest : σ.issuer.largest ≤ m.largest) :
    (σ.put m v y).Sound := by
  refine h.keep ?_ hpolicy hlargest rfl fun w => ?_
  · rw [ids_put, hy]
    exact hm
  · by_cases hw : w = v
    · left
      rw [ids_put, hy, hw, Function.update_self]
    · right
      simp [put, hw]

theorem release (h : σ.Sound) (v : Fin n) (value : F) :
    Yields (σ.release v value) fun σ' => σ'.Sound ∧ σ'.issuer.policy = σ.issuer.policy := by
  refine (h.guards.retire v).bind fun m hm => .ok ⟨?_, hm.2.1⟩
  exact h.putPassive v rfl hm.1 hm.2.1 hm.2.2.ge

theorem line (h : σ.Sound) (l : Line F n) :
    Yields (σ.line l) fun σ' => σ'.Sound ∧ σ'.issuer.policy = σ.issuer.policy := by
  cases l with
  | constant v value =>
    exact .ok ⟨h.putPassive v rfl (h.guards.update_passive v) rfl (Nat.le_refl _), rfl⟩
  | assign v value args =>
    rw [Ledger.line]
    split
    · exact h.release v value
    · have hx := h.guards.settle v
      refine .ok ⟨h.grant v value hx rfl ⟨hx.ne_passive, fun a ha => ?_⟩ nofun, hx.policy_eq⟩
      have := (List.mem_filter.mp ha).2
      simpa using this
  | output v =>
    rw [Ledger.line]
    split
    · exact .ok ⟨h, rfl⟩
    · rename_i hv
      refine (h.guards.replace v).bind fun m hx => .ok ⟨?_, hx.policy_eq⟩
      refine h.grant v (σ.vars v).value hx rfl ⟨hx.ne_passive, fun a ha => ?_⟩ nofun
      rw [List.mem_singleton.mp ha]
      exact hv
  | release v => exact h.release v _

theorem input (h : σ.Sound) (v : Fin n) :
    Yields (σ.step (.input v)) fun σ' => σ'.Sound ∧ σ'.issuer.policy = σ.issuer.policy := by
  obtain ⟨x, hok, hx⟩ := h.guards.exchange v
  have hrenew : σ.renew v = .ok (σ.put x.2 v ⟨(σ.vars v).value, x.1⟩) := by
    rw [renew, hok]
    rfl
  rw [step, hrenew]
  refine .ok ⟨h.grant v (σ.vars v).value hx ?_ trivial nofun, hx.policy_eq⟩
  rw [ids_put, Function.update_self]
  rfl

end Sound

end Ledger

end Autodiff
