import Lox.Proofs.Machine.Fuel
import Lox.Proofs.Machine.Mirror

/-!
Loops and rows of statements without their values. How a loop or a block hands out its fuel to its
parts makes no difference in the end: it comes to what it comes to when every part gets the same.
-/
namespace Lox

namespace Exec

variable {α β γ : Type} {top : Tier} {rest : List Tier}

def void (x : Exec α) : Exec Unit := do
  let _ ← x
  return ()

/-- Takes turns while a test holds, each with a unit of fuel less. -/
def repeatWhile (holds : Nat → Exec Bool) (turn : Nat → Exec Unit) : Nat → Exec Unit
  | 0 => outOfFuel
  | fuel + 1 => do
    if ← holds fuel then
      turn fuel
      repeatWhile holds turn fuel
    else return ()

theorem Improves.void {x y : Exec α} (h : Improves x y) : Improves x.void y.void :=
  h.bind fun _ => improves_refl _

theorem Keeps.void {declares : Bool} {x : Exec α} (h : Keeps declares x) :
    Keeps declares x.void :=
  h.bind fun _ => keeps_pure ()

theorem Mirrors.void {x y : Exec α} (h : Mirrors top rest x y) : Mirrors top rest x.void y.void :=
  h.bind fun _ => mirrors_pure ()

theorem void_inNewFrame (x : Exec α) : (inNewFrame x).void = inNewFrame x.void := by
  funext s
  unfold void
  simp only [Bind.bind, Exec.bind, inNewFrame]
  cases x { s with store := s.store.push (some s.frame), frame := s.store.frames.size } <;> rfl

variable {holds holds' : Nat → Exec Bool} {turn turn' : Nat → Exec Unit}

theorem Improves.repeatWhile {more : Nat}
    (hholds : ∀ fuel, Improves (holds fuel) (holds' (fuel + more)))
    (hturn : ∀ fuel, Improves (turn fuel) (turn' (fuel + more))) (fuel : Nat) :
    Improves (Exec.repeatWhile holds turn fuel) (Exec.repeatWhile holds' turn' (fuel + more)) := by
  induction fuel with
  | zero => exact improves_outOfFuel _
  | succ fuel ih =>
    rw [Nat.add_right_comm, Exec.repeatWhile, Exec.repeatWhile]
    refine (hholds fuel).bind fun b => ?_
    split
    · exact (hturn fuel).bind fun _ => ih
    · exact improves_refl _

theorem Keeps.repeatWhile {declares : Bool} (hholds : ∀ fuel, Keeps declares (holds fuel))
    (hturn : ∀ fuel, Keeps declares (turn fuel)) (fuel : Nat) :
    Keeps declares (Exec.repeatWhile holds turn fuel) := by
  induction fuel with
  | zero => exact keeps_outOfFuel
  | succ fuel ih =>
    unfold Exec.repeatWhile
    refine (hholds fuel).bind fun b => ?_
    split
    · exact (hturn fuel).bind fun _ => ih
    · exact keeps_pure ()

theorem Mirrors.repeatWhile (hholds : ∀ fuel, Mirrors top rest (holds fuel) (holds' fuel))
    (hturn : ∀ fuel, Mirrors top rest (turn fuel) (turn' fuel)) (fuel : Nat) :
    Mirrors top rest (Exec.repeatWhile holds turn fuel) (Exec.repeatWhile holds' turn' fuel) := by
  induction fuel with
  | zero => exact mirrors_outOfFuel
  | succ fuel ih =>
    unfold Exec.repeatWhile
    refine (hholds fuel).bind fun b => ?_
    split
    · exact (hturn fuel).bind fun _ => ih
    · exact mirrors_pure ()

end Exec

open Exec

variable {settings : Settings} {fuel more calls : Nat}

def test (settings : Settings) (fuel calls : Nat) (n : Node) : Exec Bool := do
  let v ← evaluate settings fuel calls n
  return v.isTruthy

theorem test_improves (h : fuel ≤ more) (calls : Nat) (n : Node) :
    Improves (test settings fuel calls n) (test settings more calls n) :=
  (evaluate_improves h calls n).bind fun _ => improves_refl _

theorem iterate_eq (hquiet : settings.verbosity = 0) (fuel calls : Nat) (condition body : Node) :
    iterate settings fuel calls condition body = (do
      repeatWhile (test settings · calls condition)
        (fun fuel => (execute settings fuel calls body).void) fuel
      return .nil) := by
  induction fuel with
  | zero =>
    unfold iterate repeatWhile
    rfl
  | succ fuel ih =>
    unfold iterate repeatWhile
    simp only [trace_quiet hquiet, test, void, bind_assoc, pure_bind, ih]
    congr 1
    funext v
    split
    · simp only [bind_assoc]
    · rfl

theorem execute_loop_void (hquiet : settings.verbosity = 0) (fuel calls : Nat)
    (condition body : Node) :
    (execute settings (fuel + 1) calls (.loop condition body)).void =
      repeatWhile (test settings · calls condition)
        (fun fuel => (execute settings fuel calls body).void) fuel := by
  have hloop : execute settings (fuel + 1) calls (.loop condition body) =
      iterate settings fuel calls condition body := by
    unfold execute
    rfl
  rw [hloop, iterate_eq hquiet, void, bind_assoc]
  simp only [pure_bind, bind_pure_unit]

def inOrder (settings : Settings) (fuel calls : Nat) : List Node → Exec Unit
  | [] => return ()
  | n :: ns => do
    (execute settings fuel calls n).void
    inOrder settings fuel calls ns

theorem executeAll_inOrder (h : fuel ≤ more) (calls : Nat) (last : Value) (ns : List Node) :
    Improves (executeAll settings fuel calls last ns).void (inOrder settings more calls ns) := by
  induction ns generalizing fuel last with
  | nil =>
    unfold inOrder
    cases fuel with
    | zero =>
      unfold executeAll
      exact improves_outOfFuel _
    | succ fuel =>
      unfold executeAll
      exact improves_refl _
  | cons n ns ih =>
    cases fuel with
    | zero =>
      unfold executeAll
      exact improves_outOfFuel _
    | succ fuel =>
      have hle : fuel ≤ more := Nat.le_of_succ_le h
      unfold executeAll inOrder void
      simp only [bind_assoc, pure_bind]
      exact (execute_improves hle calls n).bind fun v => ih hle v

theorem inOrder_executeAll (fuel calls : Nat) (last : Value) (ns : List Node) :
    Improves (inOrder settings fuel calls ns)
      (executeAll settings (fuel + ns.length + 1) calls last ns).void := by
  induction ns generalizing last with
  | nil =>
    unfold inOrder executeAll
    exact improves_refl _
  | cons n ns ih =>
    have hle : fuel ≤ fuel + ns.length + 1 := by omega
    rw [List.length_cons, ← Nat.add_assoc]
    unfold executeAll inOrder void
    simp only [bind_assoc, pure_bind]
    exact (execute_improves hle calls n).bind fun v => ih v

theorem block_inOrder (h : fuel ≤ more) (calls : Nat) (ns : List Node) :
    Improves (execute settings fuel calls (.block ns)).void
      (inNewFrame (inOrder settings more calls ns)) := by
  cases fuel with
  | zero =>
    unfold execute
    exact improves_outOfFuel _
  | succ fuel =>
    unfold execute
    have hblock := (@executeAll_inOrder settings _ _ (Nat.le_of_succ_le h) calls .nil ns).inNewFrame
    rw [← void_inNewFrame] at hblock
    simpa only [void, bind_assoc, pure_bind] using hblock

theorem inOrder_block (fuel calls : Nat) (ns : List Node) :
    Improves (inNewFrame (inOrder settings fuel calls ns))
      (execute settings (fuel + ns.length + 2) calls (.block ns)).void := by
  unfold execute
  have hblock := (@inOrder_executeAll settings fuel calls .nil ns).inNewFrame
  rw [← void_inNewFrame] at hblock
  simpa only [void, bind_assoc, pure_bind] using hblock

theorem execute_block_void (fuel calls : Nat) (ns : List Node) :
    execute settings fuel calls (.block ns) = (do
      (execute settings fuel calls (.block ns)).void
      return .nil) := by
  cases fuel with
  | zero =>
    unfold execute
    rfl
  | succ fuel =>
    unfold execute
    simp only [void, bind_assoc, pure_bind]

/-- Two ways to spend fuel both come to an end or neither does, and ends that they come to are
alike. -/
structure SameEnds {α : Type} (rel : State → State → Prop) (x y : Nat → Outcome α) : Prop where
  ends : (∃ fuel, x fuel ≠ .outOfFuel) ↔ ∃ fuel, y fuel ≠ .outOfFuel
  alike : ∀ fuel fuel', x fuel ≠ .outOfFuel → y fuel' ≠ .outOfFuel →
    (x fuel).Alike rel (y fuel')

/-- It is enough to go in step with a third way that is level with the first one but for a bounded
amount of fuel. -/
theorem sameEnds_of_improves {α : Type} {rel : State → State → Prop} {x x' y : Nat → Exec α}
    {s : State} (delay : Nat) (hx : ∀ k m, k ≤ m → Improves (x k) (x m))
    (hy : ∀ k m, k ≤ m → Improves (y k) (y m)) (hle : ∀ k, Improves (x k) (x' k))
    (hge : ∀ k, Improves (x' k) (x (k + delay))) (h : ∀ k, (x' k s).Alike rel (y k s)) :
    SameEnds rel (x · s) (y · s) where
  ends := by
    constructor
    · rintro ⟨k, hk⟩
      rw [← (hle k).eq_of_ne hk] at hk
      exact ⟨k, (h k).ne_outOfFuel_iff.1 hk⟩
    · rintro ⟨k, hk⟩
      have hk' := (h k).ne_outOfFuel_iff.2 hk
      rw [← (hge k).eq_of_ne hk'] at hk'
      exact ⟨k + delay, hk'⟩
  alike := by
    intro k m hk hm
    have hleft := (hx k (max k m) (Nat.le_max_left k m)).eq_of_ne hk
    have hright := (hy m (max k m) (Nat.le_max_right k m)).eq_of_ne hm
    have hends := h (max k m)
    rw [(hle (max k m)).eq_of_ne (hleft ▸ hk), hleft, hright] at hends
    exact hends

end Lox
