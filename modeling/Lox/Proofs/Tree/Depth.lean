import Lox.Node.Depth
import Lox.Proofs.Tree.Record

/-!
How deep it goes to record a tree and to load a datum. Both are bounded by the height of what is
worked on, and what was recorded is loaded without going deeper.
-/
namespace Lox

theorem isOk_bind {α β : Type} {b : Bool} (x : Except LoadError α) {f : α → Except LoadError β}
    (hf : ∀ a, (f a).isOk = b) : (x >>= f).isOk = (x.isOk && b) := by
  cases x with
  | error e => rfl
  | ok a => exact hf a

namespace Parts

theorem isOk_assemble (parts : Parts) (form : Form) :
    (parts.assemble form).isOk = form.asks.all parts.grants := by
  cases form with
  | literal | grouping | expression | print | name | block =>
    exact isOk_bind _ fun _ => rfl
  | unary | assign | var | loop =>
    exact isOk_bind _ fun _ => isOk_bind _ fun _ => rfl
  | binary | logical | call | ifElse | function =>
    exact isOk_bind _ fun _ => isOk_bind _ fun _ => isOk_bind _ fun _ => rfl

theorem asksDepth_le {parts : Parts} {depths : List (Text × Nat)} {bound : Nat} :
    ∀ {asks : List Ask}, (∀ a ∈ asks, parts.askDepth depths a ≤ bound) →
      parts.asksDepth depths asks ≤ bound
  | [], _ => Nat.zero_le _
  | a :: r, h => by
    have hr := asksDepth_le fun b hb => h b (List.mem_cons_of_mem a hb)
    have ha := h a List.mem_cons_self
    unfold asksDepth
    split <;> omega

theorem askDepth_le {parts : Parts} {depths : List (Text × Nat)} {bound : Nat}
    (h : ∀ key, (Datum.field? depths key).getD 0 ≤ bound) (hbound : 3 ≤ bound) (a : Ask) :
    parts.askDepth depths a ≤ bound + 1 := by
  cases a with
  | node key => exact Nat.le_succ_of_le (h key)
  | nodes key =>
    rw [askDepth]
    split
    · exact Nat.le_succ_of_le (Nat.le_trans (Nat.sub_le ..) (h key))
    · exact Nat.le_succ_of_le hbound
  | token key => exact Nat.le_succ_of_le hbound
  | tokens key => exact Nat.succ_le_succ hbound

end Parts

theorem Datum.height_field? {fields : List (Text × Datum)} {key : String} {d : Datum}
    (h : Datum.field? fields key = some d) : d.height ≤ Datum.heightFields fields := by
  induction fields with
  | nil => cases h
  | cons f r ih =>
    obtain ⟨k, e⟩ := f
    rw [field?, List.lookup_cons] at h
    rw [heightFields]
    split at h
    · cases h
      exact Nat.le_max_left ..
    · exact Nat.le_trans (ih h) (Nat.le_max_right ..)

namespace Node

theorem depth_formOf {fields : List (Text × Datum)} {e : LoadError} (h : formOf fields = .error e) :
    e.depth ≤ Datum.heightFields fields + 1 := by
  unfold formOf at h
  split at h
  · cases h
    exact Nat.le_refl _
  · split at h
    · cases h
    · cases h
      exact Nat.zero_le _
  · rename_i type hother htype
    cases h
    have hheight := Datum.height_field? htype
    cases type
    case str s => exact absurd rfl (hother s)
    all_goals exact Nat.succ_le_succ hheight

mutual

theorem loadDepth_le : ∀ d : Datum, loadDepth d ≤ 2 * d.height + 3
  | .list items => by
    have hitems := itemsDepth_le items
    rw [loadDepth, Datum.height]
    omega
  | .object fields => by
    have hfields := fieldDepths_le fields
    rw [loadDepth, Datum.height]
    split
    · rename_i form _
      have hasks : (partsOf [] fields).asksDepth (fieldDepths fields) form.asks ≤ _ :=
        Parts.asksDepth_le fun a _ => Parts.askDepth_le hfields (by omega) a
      omega
    · rename_i e he
      have := depth_formOf he
      omega
  | .null | .bool _ | .int _ | .num _ | .str _ => by
    rw [loadDepth]
    · omega
    · nofun
    · nofun

theorem itemsDepth_le : ∀ items : List Datum, itemsDepth items ≤ 2 * Datum.heightItems items + 3
  | [] => Nat.zero_le _
  | d :: r => by
    have hd := loadDepth_le d
    have hr := itemsDepth_le r
    rw [itemsDepth, Datum.heightItems]
    split <;> omega

theorem fieldDepths_le : ∀ (fields : List (Text × Datum)) (key : String),
    (Datum.field? (fieldDepths fields) key).getD 0 ≤ 2 * Datum.heightFields fields + 3
  | [], _ => Nat.zero_le _
  | (k, d) :: r, key => by
    have hd := loadDepth_le d
    have hr := fieldDepths_le r key
    rw [fieldDepths, Datum.field?, List.lookup_cons, Datum.heightFields]
    split
    · rw [Option.getD_some]
      omega
    · rw [Datum.field?] at hr
      omega

end

mutual

/-- The nodes within each other, down to the innermost, with a list for a node of its own. -/
def height : Node → Nat
  | .literal _ | .name _ => 1
  | .grouping a | .expression a | .print a => height a + 1
  | .unary _ a | .assign _ a | .var _ a => height a + 1
  | .binary a _ b | .logical a _ b => max (height a) (height b) + 1
  | .call callee _ arguments => max (height callee) (rowHeight arguments) + 1
  | .block items | .list items => rowHeight items + 1
  | .ifElse a b c => max (height a) (max (height b) (height c)) + 1
  | .loop a b => max (height a) (height b) + 1
  | .function _ _ body => rowHeight body + 1

def rowHeight : List Node → Nat
  | [] => 0
  | n :: r => max (height n) (rowHeight r)

end

mutual

theorem recordDepth_bounds : ∀ n : Node,
    n.height ≤ n.recordDepth ∧ n.recordDepth ≤ 2 * n.height + 3
  | .literal _ | .name _ => by simp [height, recordDepth, tokenDepth]
  | .grouping a | .expression a | .print a => by
    have ha := recordDepth_bounds a
    simp only [height, recordDepth]
    omega
  | .unary _ a | .assign _ a | .var _ a => by
    have ha := recordDepth_bounds a
    simp only [height, recordDepth, tokenDepth]
    omega
  | .binary a _ b | .logical a _ b => by
    have ha := recordDepth_bounds a
    have hb := recordDepth_bounds b
    simp only [height, recordDepth, tokenDepth]
    omega
  | .call callee _ arguments => by
    have hcallee := recordDepth_bounds callee
    have harguments := rowDepth_bounds arguments
    simp only [height, recordDepth, tokenDepth]
    omega
  | .block items | .list items | .function _ _ items => by
    have hitems := rowDepth_bounds items
    simp only [height, recordDepth, tokenDepth]
    omega
  | .ifElse a b c => by
    have ha := recordDepth_bounds a
    have hb := recordDepth_bounds b
    have hc := recordDepth_bounds c
    simp only [height, recordDepth]
    omega
  | .loop a b => by
    have ha := recordDepth_bounds a
    have hb := recordDepth_bounds b
    simp only [height, recordDepth]
    omega

theorem rowDepth_bounds : ∀ items : List Node,
    rowHeight items ≤ rowDepth items ∧ rowDepth items ≤ 2 * rowHeight items + 3
  | [] => ⟨Nat.le_refl _, Nat.zero_le _⟩
  | n :: r => by
    have hn := recordDepth_bounds n
    have hr := rowDepth_bounds r
    simp only [rowHeight, rowDepth]
    omega

end

theorem loadDepth_record_le {form : Form} {parts : List (Text × Datum)} {bound : Nat}
    (h : ∀ a ∈ form.asks,
      (partsOf [] ((("type" : Text), .str form.title) :: parts)).askDepth
        (fieldDepths ((("type" : Text), .str form.title) :: parts)) a ≤ bound) :
    loadDepth (record form parts) ≤ bound + 1 := by
  rw [record, loadDepth, formOf_record]
  exact Nat.succ_le_succ (Parts.asksDepth_le h)

mutual

/-- What was recorded is loaded without going deeper. -/
theorem loadDepth_toDatum : ∀ n : Node, loadDepth n.toDatum ≤ n.recordDepth
  | .literal t | .name t => by
    rw [toDatum, recordDepth]
    apply loadDepth_record_le
    simp [Form.asks, Parts.askDepth]
  | .grouping a | .expression a | .print a => by
    have ha := loadDepth_toDatum a
    rw [toDatum, recordDepth]
    apply loadDepth_record_le
    simp [Form.asks, Parts.askDepth, fieldDepths, ha]
  | .unary t a | .assign t a | .var t a => by
    have ha := loadDepth_toDatum a
    rw [toDatum, recordDepth]
    apply loadDepth_record_le
    simp [Form.asks, Parts.askDepth, fieldDepths, ha]
  | .binary a t b | .logical a t b => by
    have ha := loadDepth_toDatum a
    have hb := loadDepth_toDatum b
    rw [toDatum, recordDepth]
    apply loadDepth_record_le
    simp [Form.asks, Parts.askDepth, fieldDepths, ha, hb]
  | .call callee t arguments => by
    have hcallee := loadDepth_toDatum callee
    have harguments := itemsDepth_toData arguments
    rw [toDatum, recordDepth]
    apply loadDepth_record_le
    simp [Form.asks, Parts.askDepth, fieldDepths, partsOf, loadDepth, hcallee, harguments]
  | .block items => by
    have hitems := itemsDepth_toData items
    rw [toDatum, recordDepth]
    apply loadDepth_record_le
    simp [Form.asks, Parts.askDepth, fieldDepths, partsOf, loadDepth, hitems]
  | .ifElse a b c => by
    have ha := loadDepth_toDatum a
    have hb := loadDepth_toDatum b
    have hc := loadDepth_toDatum c
    rw [toDatum, recordDepth]
    apply loadDepth_record_le
    simp [Form.asks, Parts.askDepth, fieldDepths, ha, hb, hc]
  | .loop a b => by
    have ha := loadDepth_toDatum a
    have hb := loadDepth_toDatum b
    rw [toDatum, recordDepth]
    apply loadDepth_record_le
    simp [Form.asks, Parts.askDepth, fieldDepths, ha, hb]
  | .function t params body => by
    have hbody := itemsDepth_toData body
    rw [toDatum, recordDepth]
    apply loadDepth_record_le
    simp [Form.asks, Parts.askDepth, fieldDepths, partsOf, loadDepth, hbody]
    exact Nat.le_succ_of_le (Nat.le_max_left ..)
  | .list items => by
    have hitems := itemsDepth_toData items
    rw [toDatum, loadDepth, recordDepth]
    omega

theorem itemsDepth_toData : ∀ items : List Node, itemsDepth (toData items) ≤ rowDepth items
  | [] => Nat.le_refl _
  | n :: r => by
    have hn := loadDepth_toDatum n
    have hr := itemsDepth_toData r
    rw [toData, itemsDepth, rowDepth]
    split <;> omega

end

end Node

end Lox
