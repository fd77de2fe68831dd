import Autodiff.Proofs.PooledRecordings

namespace Autodiff

inductive ArrayRef
  | inputs (vs : List Nat)
  | outputs (n : Nat)
  deriving DecidableEq, Repr

structure Placing where
  target : Nat
  array : Nat
  element : Nat
  active : Bool
  deriving DecidableEq, Repr

/-- A call of an external function. All arrays of its record are staged first, then the results are
settled one after the other, and the record is made of the staged arrays. -/
structure ExternalCall (F : Type) where
  token : Token
  schema : Schema F
  arrays : List ArrayRef
  places : List Placing
  record : List (Staged F) → schema.Record
  length_arrays : ∀ as, as.length = arrays.length →
    (schema.arrays (record as)).length = arrays.length

variable {F : Type}

/-- The record is made of what the staged arrays hold, and not of the room that they keep. -/
def ExternalCall.Blind (c : ExternalCall F) : Prop :=
  ∀ as bs, List.Forall₂ Staged.Alike as bs → c.schema.Alike (c.record as) (c.record bs)

variable [Scalar F]

namespace Recording

def staging (r : Recording F) : ArrayRef → Staging F
  | .inputs vs => .inputs (r.getAll vs)
  | .outputs n => .outputs n

def settle (x : Recording F × List (Staged F)) (p : Placing) :
    Except Fault (Recording F × List (Staged F)) := do
  let (r, as) := x
  let (old, y, t) ← r.tape.placeOutput (r.get p.target) p.active
  return ((r.withTape t).set p.target y, as.modify p.array (·.setOutput p.element y old))

def callExternal (r : Recording F) (kernels : Kernels F) (c : ExternalCall F) :
    Except Fault (Note F × Recording F) := do
  let (as, pool) := r.tape.pool.stageEach (c.arrays.map r.staging)
  let (r, as) ← c.places.foldlM settle (r.withTape (r.tape.withPool pool), as)
  let t ← r.tape.writeRecord kernels c.token c.schema (c.record as)
  let t ← t.reclaim c.schema (c.record as)
  return (.list (c.places.map fun p => variableNote (r.get p.target)), r.withTape t)

end Recording

theorem Pool.stage_alike (p q : Pool F) (g : Staging F) : (p.stage g).1.Alike (q.stage g).1 := by
  cases g <;> exact ⟨rfl, rfl, rfl, rfl⟩

theorem Pool.stageEach_alike (p q : Pool F) (gs : List (Staging F)) :
    List.Forall₂ Staged.Alike (p.stageEach gs).1 (q.stageEach gs).1 := by
  induction gs generalizing p q with
  | nil => exact .nil
  | cons g gs ih => exact .cons (stage_alike p q g) (ih _ _)

namespace Recording

variable {r r' : Recording F} {lent : Nat} {apart : Prop} {kernels : Kernels F}

structure Settled (lent n : Nat) (x y : Recording F × List (Staged F)) : Prop where
  recording : x.1.UpToPool lent y.1
  staged : List.Forall₂ Staged.Alike x.2 y.2
  length_eq : x.2.length = n

theorem settle_coupled {n : Nat} {x y : Recording F × List (Staged F)} (h : Settled lent n x y)
    (p : Placing) : Coupled Fault.Agree (Settled lent n) (settle x p) (settle y p) := by
  obtain ⟨r, as⟩ := x
  obtain ⟨r', bs⟩ := y
  rw [settle, settle]
  dsimp only
  rw [h.recording.get_eq]
  refine (h.recording.tape.placeOutput (r.get p.target) p.active).bind ?_
  rintro ⟨_, _, t⟩ ⟨old, z, u⟩ ⟨rfl, rfl, ht⟩
  refine .ok ⟨(h.recording.withTape ht).set p.target z, ?_, ?_⟩
  · exact forall₂_modify h.staged (fun _ _ hab => hab.setOutput p.element z old) p.array
  · rw [List.length_modify, h.length_eq]

theorem callExternal_coupled (h : Near apart (UpToPool 0) r r') {c : ExternalCall F}
    (hc : apart → c.Blind) :
    Coupled Fault.Agree (fun x y => y.1 = x.1 ∧ x.2.UpToPool 0 y.2) (r.callExternal kernels c)
      (r'.callExternal kernels c) := by
  have hstagings : c.arrays.map r'.staging = c.arrays.map r.staging := by
    refine List.map_congr_left fun a _ => ?_
    cases a with
    | inputs vs => exact congrArg Staging.inputs (h.1.getAll_eq vs)
    | outputs n => rfl
  obtain ⟨pool, hpool, htape⟩ := h.1.tape.exists_eq
  have hstaged (p : Pool F) (hp : p.lent = 0) :
      (p.stageEach (c.arrays.map r.staging)).1.length = c.arrays.length ∧
        (p.stageEach (c.arrays.map r.staging)).2.lent = 4 * c.arrays.length := by
    have heq := p.stageEach_eq (c.arrays.map r.staging)
    rwa [hp, List.length_map, Nat.zero_add] at heq
  have hstart : Settled (4 * c.arrays.length) c.arrays.length
      (r.withTape (r.tape.withPool (r.tape.pool.stageEach (c.arrays.map r.staging)).2),
        (r.tape.pool.stageEach (c.arrays.map r.staging)).1)
      (r'.withTape (r'.tape.withPool (r'.tape.pool.stageEach (c.arrays.map r.staging)).2),
        (r'.tape.pool.stageEach (c.arrays.map r.staging)).1) := by
    refine ⟨h.1.withTape ⟨?_, (hstaged _ h.1.tape.lent_eq).2, (hstaged _ h.1.tape.lent_eq').2⟩,
      Pool.stageEach_alike _ _ _, (hstaged _ h.1.tape.lent_eq).1⟩
    rw [htape]
    rfl
  have hsettled := Coupled.foldlM (fun p (_ : p ∈ c.places) _ _ hs => settle_coupled hs p) hstart
  rw [callExternal, callExternal, hstagings]
  refine (hsettled.near fun hapart => by rw [h.2 hapart]).bind ?_
  rintro ⟨r₁, as⟩ ⟨r₂, bs⟩ ⟨⟨hr, hab, hlength⟩, hsame⟩
  have hrecord : c.schema.Alike (c.record as) (c.record bs) := by
    -- Staged arrays of different room are only there where the pools are.
    by_cases hapart : apart
    · exact hc hapart as bs hab
    · obtain ⟨rfl, rfl⟩ := Prod.mk.inj (hsame hapart)
      exact .refl _
  have ht := hr.tape
  rw [← c.length_arrays as hlength] at ht
  refine (ht.writeRecord hrecord).bind fun _ _ ht => ?_
  refine (ht.reclaim hrecord).bind fun _ _ ht => .ok ⟨?_, hr.withTape ht⟩
  exact congrArg Note.list (List.map_congr_left fun p _ => by rw [hr.get_eq])

end Recording

end Autodiff
