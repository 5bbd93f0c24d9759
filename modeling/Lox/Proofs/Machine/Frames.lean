import Lox.Proofs.Machine.Plan
import Lox.Proofs.Store.Chain
import Lox.Proofs.Tree.Proper

/-!
What running code may do to the frames that were there before. However it ends, the current frame
is current again, no frame loses a name or gets another parent, and frames off the current chain
stay as they are. A statement may add names to the current frame, an expression to none.
-/
namespace Lox

/-- The current frame exists. -/
def State.Live (s : State) : Prop := s.frame < s.store.frames.size

/-- What a step keeps of the frames that it found, and whether it may declare names. -/
structure Kept (declares : Bool) (s t : State) : Prop where
  frame : t.frame = s.frame
  size : s.store.frames.size ≤ t.store.frames.size
  parent : ∀ i < s.store.frames.size, t.store.parent? i = s.store.parent? i
  names : ∀ i < s.store.frames.size, ∀ name, s.store.Binds i name → t.store.Binds i name
  added : ∀ i < s.store.frames.size, ∀ name, t.store.Binds i name →
    s.store.Binds i name ∨ (declares = true ∧ i = s.frame)
  apart : ∀ i < s.store.frames.size, ¬s.store.OnChain s.frame i →
    t.store.frames[i]? = s.store.frames[i]?

namespace Kept

variable {declares : Bool} {s t u : State}

theorem of_same (hstore : t.store = s.store) (hframe : t.frame = s.frame) : Kept declares s t where
  frame := hframe
  size := Nat.le_of_eq (by rw [hstore])
  parent := by
    intro i _
    rw [hstore]
  names := by
    intro i _ name h
    rwa [hstore]
  added := by
    intro i _ name h
    rw [hstore] at h
    exact .inl h
  apart := by
    intro i _ _
    rw [hstore]

theorem live (h : Kept declares s t) (hs : s.Live) : t.Live := by
  unfold State.Live at hs ⊢
  have hframe := h.frame
  have hsize := h.size
  omega

theorem trans (hs : s.Live) (h : Kept declares s t) (h' : Kept declares t u) :
    Kept declares s u where
  frame := h'.frame.trans h.frame
  size := Nat.le_trans h.size h'.size
  parent := by
    intro i hi
    rw [h'.parent i (Nat.lt_of_lt_of_le hi h.size), h.parent i hi]
  names := by
    intro i hi name hname
    exact h'.names i (Nat.lt_of_lt_of_le hi h.size) name (h.names i hi name hname)
  added := by
    intro i hi name hname
    obtain hname | ⟨hdeclares, heq⟩ := h'.added i (Nat.lt_of_lt_of_le hi h.size) name hname
    · exact h.added i hi name hname
    · exact .inr ⟨hdeclares, heq.trans h.frame⟩
  apart := by
    intro i hi hchain
    have hchain' : ¬t.store.OnChain t.frame i := by
      rw [h.frame]
      exact fun hc => hchain (hc.congr hs h.parent)
    rw [h'.apart i (Nat.lt_of_lt_of_le hi h.size) hchain', h.apart i hi hchain]

theorem weaken (h : Kept false s t) : Kept declares s t where
  frame := h.frame
  size := h.size
  parent := h.parent
  names := h.names
  added := by
    intro i hi name hname
    obtain hname | ⟨hfalse, -⟩ := h.added i hi name hname
    · exact .inl hname
    · cases hfalse
  apart := h.apart

theorem binds_iff (h : Kept false s t) {i : Nat} (hi : i < s.store.frames.size) (name : Name) :
    t.store.Binds i name ↔ s.store.Binds i name := by
  refine ⟨fun hname => ?_, h.names i hi name⟩
  obtain hname | ⟨hfalse, -⟩ := h.added i hi name hname
  · exact hname
  · cases hfalse

end Kept

namespace Kept

variable {s t : State}

theorem of_assign {frame : Nat} {name : Name} (value : Value)
    (h : s.store.find s.frame name = some frame) :
    Kept false s { s with store := s.store.define frame name value } := by
  obtain ⟨hchain, hbinds⟩ := Store.find_some h
  constructor
  case frame => rfl
  case size => simp
  case parent => exact fun i _ => Store.parent?_define ..
  case names => exact fun i _ n hn => Store.binds_define.2 (.inl hn)
  case added =>
    intro i _ n hn
    obtain hn | ⟨rfl, rfl, -⟩ := Store.binds_define.1 hn
    · exact .inl hn
    · exact .inl hbinds
  case apart =>
    intro i _ hi
    rw [Store.getElem?_define, if_neg]
    rintro rfl
    exact hi hchain

theorem of_define (name : Name) (value : Value) :
    Kept true s { s with store := s.store.define s.frame name value } := by
  constructor
  case frame => rfl
  case size => simp
  case parent => exact fun i _ => Store.parent?_define ..
  case names => exact fun i _ n hn => Store.binds_define.2 (.inl hn)
  case added =>
    intro i _ n hn
    obtain hn | ⟨hi, -, -⟩ := Store.binds_define.1 hn
    · exact .inl hn
    · exact .inr ⟨rfl, hi.symm⟩
  case apart =>
    intro i _ hi
    rw [Store.getElem?_define, if_neg]
    rintro rfl
    exact hi .self

theorem of_newFrame (hs : s.Live)
    (h : Kept true { s with store := s.store.push (some s.frame), frame := s.store.frames.size } t) :
    Kept false s { t with frame := s.frame } := by
  have hlt (i : Nat) (hi : i < s.store.frames.size) :
      i < (s.store.push (some s.frame)).frames.size := by
    rw [Store.size_push]
    exact Nat.lt_succ_of_lt hi
  constructor
  case frame => rfl
  case size =>
    have hsize := h.size
    simp only [Store.size_push] at hsize
    exact Nat.le_of_lt hsize
  case parent =>
    intro i hi
    exact (h.parent i (hlt i hi)).trans (Store.parent?_push hi _)
  case names =>
    intro i hi name hname
    refine h.names i (hlt i hi) name ?_
    unfold Store.Binds
    rwa [Store.at?_push hi]
  case added =>
    intro i hi name hname
    obtain hname | ⟨-, heq⟩ := h.added i (hlt i hi) name hname
    · unfold Store.Binds at hname
      rw [Store.at?_push hi] at hname
      exact .inl hname
    · exact absurd heq (Nat.ne_of_lt hi)
  case apart =>
    intro i hi hchain
    refine (h.apart i (hlt i hi) fun hc => ?_).trans ?_
    · -- the chain of the new frame is that frame and then the chain of the old one
      cases hc with
      | self => exact Nat.lt_irrefl _ hi
      | outward hp hc =>
        rw [Store.parent?_push_size hs] at hp
        cases hp
        exact hchain (hc.congr hs fun j hj => Store.parent?_push hj _)
    · rw [Store.getElem?_push, if_neg (Nat.ne_of_lt hi)]

end Kept

def Exec.Keeps {α : Type} (declares : Bool) (x : Exec α) : Prop :=
  ∀ s, s.Live → (x s).Meets (fun _ t => Kept declares s t) (fun _ t => Kept declares s t)

namespace Exec

variable {α β : Type} {declares : Bool} {settings : Settings}

theorem keeps_pure (a : α) : Keeps declares (pure a) := fun _ _ => .of_same rfl rfl

theorem keeps_outOfFuel : Keeps declares (outOfFuel : Exec α) := fun _ _ => trivial

theorem keeps_fail (fault : Fault) : Keeps declares (fail fault : Exec α) :=
  fun _ _ => .of_same rfl rfl

theorem keeps_ofExcept (r : Except Fault α) : Keeps declares (ofExcept r) := by
  cases r with
  | ok a => exact fun _ _ => .of_same rfl rfl
  | error fault => exact keeps_fail fault

theorem keeps_emit (e : Event) : Keeps declares (emit e) := fun _ _ => .of_same rfl rfl

theorem keeps_freshId : Keeps declares freshId := fun _ _ => .of_same rfl rfl

theorem keeps_depth : Keeps declares depth := fun _ _ => .of_same rfl rfl

theorem keeps_trace (entry : Trace) : Keeps declares (trace settings entry) := by
  unfold trace
  split
  · split
    · exact keeps_fail _
    · exact keeps_emit _
  · exact keeps_pure ()

theorem Keeps.bind {x : Exec α} {f : α → Exec β} (hx : Keeps declares x)
    (hf : ∀ a, Keeps declares (f a)) : Keeps declares (x >>= f) := by
  intro s hs
  apply Outcome.Meets.bind
  refine (hx s hs).mono (fun a t h => ?_) (fun _ _ h => h)
  exact (hf a t (h.live hs)).mono (fun _ _ h' => h.trans hs h') (fun _ _ h' => h.trans hs h')

theorem Keeps.weaken {x : Exec α} (h : Keeps false x) : Keeps declares x :=
  fun s hs => (h s hs).mono (fun _ _ h => h.weaken) (fun _ _ h => h.weaken)

theorem Keeps.inNewFrame {x : Exec α} (h : Keeps true x) : Keeps false (inNewFrame x) := by
  intro s hs
  apply Outcome.Meets.restore
  have hlive : State.Live { s with
      store := s.store.push (some s.frame), frame := s.store.frames.size } := by
    simp [State.Live]
  exact (h _ hlive).mono (fun _ _ h => .of_newFrame hs h) (fun _ _ h => .of_newFrame hs h)

theorem keeps_define (t : Token) (v : Value) : Keeps true (define t v) := by
  intro s _
  rw [define_eq]
  split
  · exact .of_define ..
  · exact .of_same rfl rfl

theorem keeps_lookup (t : Token) : Keeps declares (lookup t) := by
  intro s _
  rw [lookup_eq]
  split
  · split
    · exact .of_same rfl rfl
    · exact .of_same rfl rfl
  · exact .of_same rfl rfl

theorem keeps_assign (t : Token) (v : Value) : Keeps false (assign t v) := by
  intro s _
  rw [assign_eq]
  split
  · split
    · rename_i hfind
      exact .of_assign v hfind
    · exact .of_same rfl rfl
  · exact .of_same rfl rfl

end Exec

def Op.declares : {α : Type} → Op α → Bool
  | _, .define .. => true
  | _, _ => false

def Query.Quiet : {α : Type} → Query α → Prop
  | _, .execute n => n.Quiet
  | _, .executeAll .. => False
  | _, .iterate _ body => body.Quiet
  | _, _ => True

/-- The plan declares nothing in the frame it is carried out in. -/
def Plan.Quiet : {α : Type} → Plan α → Prop
  | _, .done _ => True
  | _, .step op next => op.declares = false ∧ ∀ b, (next b).Quiet
  | _, .ask query next => query.Quiet ∧ ∀ b, (next b).Quiet
  | _, .scope _ next => next.Quiet
  | _, .call _ _ next => next.Quiet

theorem Query.Quiet.plan {α : Type} {query : Query α} (h : query.Quiet) : query.plan.Quiet := by
  cases query with
  | execute n =>
    cases n with
    | var | function => exact h.elim
    | ifElse condition thenBranch elseBranch =>
      obtain ⟨hthen, helse⟩ := h
      refine ⟨trivial, fun v => ⟨rfl, fun _ => ⟨?_, fun _ => trivial⟩⟩⟩
      change Node.Quiet (if v.isTruthy then thenBranch else elseBranch)
      split
      · exact hthen
      · exact helse
    | loop condition body => exact ⟨h, fun _ => trivial⟩
    | _ => simp [Query.plan, Plan.Quiet, Plan.misplaced, Query.Quiet, Op.declares]
  | executeAll => exact h.elim
  | iterate condition body =>
    refine ⟨trivial, fun v => ⟨rfl, fun _ => ?_⟩⟩
    split
    · exact ⟨h, fun _ => ⟨h, fun _ => trivial⟩⟩
    · trivial
  | evaluate n =>
    cases n with
    | logical left operator right =>
      refine ⟨trivial, fun v => ?_⟩
      dsimp only
      split
      · trivial
      · exact ⟨trivial, fun _ => trivial⟩
    | _ => simp [Query.plan, Plan.Quiet, Plan.misplaced, Query.Quiet, Op.declares]
  | evaluateAll ns => cases ns <;> simp [Query.plan, Plan.Quiet, Query.Quiet]
  | invoke callee paren args =>
    cases callee <;> simp [Query.plan, Plan.Quiet, Query.Quiet, Op.declares]

namespace Exec

variable {settings : Settings} {fuel : Nat} {declares : Bool}

theorem keeps_op {α : Type} (op : Op α) (h : declares = false → op.declares = false) :
    Keeps declares (op.run settings) := by
  cases op with
  | settle r _ => exact keeps_ofExcept r
  | lookup t => exact keeps_lookup t
  | assign t v => exact (keeps_assign t v).weaken
  | define t v =>
    cases declares with
    | true => exact keeps_define t v
    | false => cases h rfl
  | freshId => exact keeps_freshId
  | print v => exact keeps_emit _
  | trace entry => exact keeps_trace entry
  | traceCall name values => exact keeps_depth.bind fun d => keeps_trace _
  | native name values => exact keeps_pure _

theorem keeps_plan
    (hquery : ∀ {β : Type} (declares : Bool) (calls : Nat) (query : Query β),
      (declares = false → query.Quiet) → Keeps declares (query.run settings fuel calls))
    {α : Type} (p : Plan α) (calls : Nat) (h : declares = false → p.Quiet) :
    Keeps declares (p.run settings fuel calls) := by
  induction p generalizing calls declares with
  | done a => exact keeps_pure a
  | step op next ih =>
    exact (keeps_op op fun hd => (h hd).1).bind fun b => ih b calls fun hd => (h hd).2 b
  | ask query next ih =>
    exact (hquery declares calls query fun hd => (h hd).1).bind fun b =>
      ih b calls fun hd => (h hd).2 b
  | scope body next ihbody ih =>
    have hbody : Keeps true (body.run settings fuel calls) := ihbody calls nofun
    exact hbody.inNewFrame.weaken.bind fun _ => ih calls h
  | call paren body next ihbody ih =>
    cases calls with
    | zero => exact keeps_fail _
    | succ calls =>
      have hbody : Keeps true (body.run settings fuel calls) := ihbody calls nofun
      exact hbody.inNewFrame.weaken.bind fun _ => ih (calls + 1) h

end Exec

/-- The evaluator keeps the frames, and declares names only where it may. -/
theorem Query.keeps (declares : Bool) (settings : Settings) (fuel calls : Nat) {α : Type}
    (query : Query α) (h : declares = false → query.Quiet) :
    Exec.Keeps declares (query.run settings fuel calls) := by
  induction fuel generalizing calls declares α with
  | zero =>
    rw [run_zero]
    exact Exec.keeps_outOfFuel
  | succ fuel ih =>
    rw [run_succ]
    exact Exec.keeps_plan (fun declares calls query h => ih declares calls query h) query.plan calls
      fun hd => (h hd).plan

end Lox
