import Mathlib.Data.List.FinRange
import RV32Pipeline.Lib.LinkedList
import RV32Pipeline.Rtl.Define

/-!
# The pool of watchpoints

The functions of `watchpoint.c` on the lists in `wp_pool`: the active watchpoints from `head` on,
doubly linked, and the free nodes from `free_` on. `free_wp` writes the field `prev` of the node
behind the one it takes out, and that of the first free node, without a look whether there is one.
So it needs a free node, and cannot take out the last active node unless that is the first.
-/

namespace RV32Pipeline

open LinkedList

/-- The structure `WP`. A pointer to a node of the pool is its index. -/
structure Wp where
  no : Word
  next : Option (Fin 32)
  prev : Option (Fin 32)
  val : Word
  expr : List Char

/-- The variables `wp_pool`, `head`, and `free_`. -/
structure WpPool where
  wpPool : Fin 32 → Wp
  head : Option (Fin 32)
  free : Option (Fin 32)

namespace WpPool

variable (p : WpPool) (w i j : Fin 32)

/-! ## Fields -/

/-- The fields `NO` of the nodes. -/
def no : Fin 32 → Word := fun i => (p.wpPool i).no

/-- The fields `next` of the nodes. -/
def next : Fin 32 → Option (Fin 32) := fun i => (p.wpPool i).next

/-- The fields `prev` of the nodes. -/
def prev : Fin 32 → Option (Fin 32) := fun i => (p.wpPool i).prev

/-- The fields `val` of the nodes. -/
def val : Fin 32 → Word := fun i => (p.wpPool i).val

/-- The fields `expr` of the nodes. -/
def expr : Fin 32 → List Char := fun i => (p.wpPool i).expr

/-- The field `next` of a node is written. -/
def setNext (v : Option (Fin 32)) : WpPool :=
  { p with wpPool := Function.update p.wpPool i { p.wpPool i with next := v } }

/-- The field `prev` of a node is written. -/
def setPrev (v : Option (Fin 32)) : WpPool :=
  { p with wpPool := Function.update p.wpPool i { p.wpPool i with prev := v } }

/-- The numbers, values, and expressions are the same. -/
def SameData (p' : WpPool) : Prop := p'.no = p.no ∧ p'.val = p.val ∧ p'.expr = p.expr

variable {p}

theorem SameData.trans {p' p'' : WpPool} (h : p.SameData p') (h' : p'.SameData p'') :
    p.SameData p'' :=
  ⟨h'.1.trans h.1, h'.2.1.trans h.2.1, h'.2.2.trans h.2.2⟩

variable (p)

/-- A function of the nodes after one of them has been written. -/
theorem comp_update {α : Type*} (f : Wp → α) (x : Wp) :
    (fun j => f (Function.update p.wpPool i x j)) =
      Function.update (fun j => f (p.wpPool j)) i (f x) := by
  funext j
  by_cases h : j = i
  · rw [h, Function.update_self, Function.update_self]
  · rw [Function.update_of_ne h, Function.update_of_ne h]

@[simp] theorem setNext_next (v : Option (Fin 32)) :
    (p.setNext i v).next = Function.update p.next i v := comp_update p i Wp.next _

@[simp] theorem setNext_prev (v : Option (Fin 32)) : (p.setNext i v).prev = p.prev :=
  (comp_update p i Wp.prev _).trans (Function.update_eq_self ..)

@[simp] theorem setPrev_next (v : Option (Fin 32)) : (p.setPrev i v).next = p.next :=
  (comp_update p i Wp.next _).trans (Function.update_eq_self ..)

@[simp] theorem setPrev_prev (v : Option (Fin 32)) :
    (p.setPrev i v).prev = Function.update p.prev i v := comp_update p i Wp.prev _

@[simp] theorem setNext_head (v : Option (Fin 32)) : (p.setNext i v).head = p.head := rfl

@[simp] theorem setNext_free (v : Option (Fin 32)) : (p.setNext i v).free = p.free := rfl

@[simp] theorem setPrev_head (v : Option (Fin 32)) : (p.setPrev i v).head = p.head := rfl

@[simp] theorem setPrev_free (v : Option (Fin 32)) : (p.setPrev i v).free = p.free := rfl

theorem setNext_sameData (v : Option (Fin 32)) : p.SameData (p.setNext i v) :=
  ⟨(comp_update p i Wp.no _).trans (Function.update_eq_self ..),
    (comp_update p i Wp.val _).trans (Function.update_eq_self ..),
    (comp_update p i Wp.expr _).trans (Function.update_eq_self ..)⟩

theorem setPrev_sameData (v : Option (Fin 32)) : p.SameData (p.setPrev i v) :=
  ⟨(comp_update p i Wp.no _).trans (Function.update_eq_self ..),
    (comp_update p i Wp.val _).trans (Function.update_eq_self ..),
    (comp_update p i Wp.expr _).trans (Function.update_eq_self ..)⟩

/-! ## Functions -/

/-- The function `init_wp_pool`, on a pool of zeros. -/
def initWpPool : WpPool where
  wpPool i :=
    { no := BitVec.ofNat 32 i
      next := if i = 31 then none else some (i + 1)
      prev := if i = 0 then none else some (i - 1)
      val := 0#32
      expr := [] }
  head := none
  free := some 0

/-- The function `new_wp`, or `none` where its assertion fails. -/
def newWp : Option (Fin 32 × WpPool) :=
  match p.free with
  | none => none
  | some w =>
    let p' := { p with head := some w, free := p.next w }
    match p.head with
    | none => some (w, (p'.setNext w none).setPrev w none)
    | some temp => some (w, ((p'.setNext w (some temp)).setPrev w none).setPrev temp (some w))

/-- The first half of `free_wp`, which takes the node out of the active ones: `none` where it
dereferences a null pointer. -/
def unlink : Option WpPool :=
  if p.head = some w then
    match p.next w with
    | none => some { p with head := none }
    | some h => some ({ p with head := some h }.setPrev h none)
  else
    match p.prev w with
    | none => none
    | some q =>
      let p' := p.setNext q (p.next w)
      match p'.next w with
      | none => none
      | some r => some (p'.setPrev r (p'.prev w))

/-- The second half of `free_wp`, which puts the node in front of the free ones. -/
def pushFree : Option WpPool :=
  let p' := (p.setNext w p.free).setPrev w none
  match p'.free with
  | none => none
  | some f => some { p'.setPrev f (some w) with free := some w }

/-- The function `free_wp`, or `none` where it dereferences a null pointer. -/
def freeWp : Option WpPool := (p.unlink w).bind fun p' => p'.pushFree w

/-- The loop of `delete_wp` at a pointer: the node with the number, if there is one. A list has at
most 32 nodes, so the loop that passes `n` of them ends. -/
def findWp (number : Word) : ℕ → Option (Fin 32) → Option (Option (Fin 32))
  | _, none => some none
  | 0, some _ => none
  | n + 1, some temp =>
    if p.no temp = number then some (some temp) else findWp number n (p.next temp)

/-- The function `delete_wp`, or `none` where it dereferences a null pointer. -/
def deleteWp (number : Word) : Option WpPool :=
  match p.findWp number 32 p.head with
  | none => none
  | some none => some p
  | some (some w) => p.freeWp w

end WpPool

/-! ## What the operations are to do -/

/-- The active nodes in order, and the free ones. -/
structure WpLists where
  active : List (Fin 32)
  free : List (Fin 32)

/-- The number of a node. -/
def number (w : Fin 32) : Word := BitVec.ofNat 32 w

/-- An operation on the pool. -/
inductive WpOp where
  | new
  | free (w : Fin 32)
  | delete (no : Word)

namespace WpLists

variable (l : WpLists)

/-- No node is active. -/
def init : WpLists := ⟨[], List.finRange 32⟩

/-- The first free node becomes the first active one. -/
def new : WpLists :=
  match l.free with
  | [] => l
  | w :: free => ⟨w :: l.active, free⟩

/-- A node is taken out of the active ones, and the order of the others stays. -/
def remove (w : Fin 32) : WpLists := ⟨l.active.erase w, w :: l.free⟩

/-- The active node with a number. -/
def find (no : Word) : Option (Fin 32) := l.active.find? fun w => number w = no

/-- The lists after an operation. -/
def op : WpOp → WpLists
  | .new => l.new
  | .free w => l.remove w
  | .delete no =>
    match l.find no with
    | none => l
    | some w => l.remove w

/-- The lists after a sequence of operations. -/
def run (ops : List WpOp) : WpLists := ops.foldl op l

/-- The callers' part: a node is asked for if there is a free one, and an active node is freed. -/
def Legal : WpOp → Prop
  | .new => l.free ≠ []
  | .free w => w ∈ l.active
  | .delete _ => True

/-- There is a free node, and the node is the first active one or not the last. -/
def Removable (w : Fin 32) : Prop :=
  l.free ≠ [] ∧ (l.active.head? = some w ∨ l.active.getLast? ≠ some w)

/-- The operation removes no node that is not removable. -/
def Safe : WpOp → Prop
  | .new => True
  | .free w => l.Removable w
  | .delete no => ∀ w, l.find no = some w → l.Removable w

instance : DecidablePred l.Legal
  | .new => inferInstanceAs (Decidable (l.free ≠ []))
  | .free w => inferInstanceAs (Decidable (w ∈ l.active))
  | .delete _ => inferInstanceAs (Decidable True)

instance : DecidablePred l.Removable := fun w =>
  inferInstanceAs (Decidable
    (l.free ≠ [] ∧ (l.active.head? = some w ∨ l.active.getLast? ≠ some w)))

instance : DecidablePred l.Safe
  | .new => inferInstanceAs (Decidable True)
  | .free w => inferInstanceAs (Decidable (l.Removable w))
  | .delete no => inferInstanceAs (Decidable (∀ w, l.find no = some w → l.Removable w))

/-- A property of the lists and the operation, at every operation of a sequence. -/
def Along (P : WpLists → WpOp → Prop) (l : WpLists) : List WpOp → Prop
  | [] => True
  | o :: ops => P l o ∧ (l.op o).Along P ops

instance decidableAlong (P : WpLists → WpOp → Prop) [∀ l, DecidablePred (P l)] (l : WpLists) :
    DecidablePred (l.Along P)
  | [] => inferInstanceAs (Decidable True)
  | o :: ops =>
    have := decidableAlong P (l.op o) ops
    inferInstanceAs (Decidable (P l o ∧ (l.op o).Along P ops))

end WpLists

namespace WpPool

/-- An operation of the code: `none` where it fails. -/
def op (p : WpPool) : WpOp → Option WpPool
  | .new => p.newWp.map Prod.snd
  | .free w => p.freeWp w
  | .delete no => p.deleteWp no

/-- A sequence of operations. -/
def run (p : WpPool) : List WpOp → Option WpPool
  | [] => some p
  | o :: ops => (p.op o).bind fun p' => p'.run ops

/-- The two lists of the pool are `l`: acyclic and disjoint, with each of the 32 nodes in one of
them once, and with inverse pointers between the active nodes. -/
structure Integrity (p : WpPool) (l : WpLists) : Prop where
  active : Chain p.next p.head l.active
  free : Chain p.next p.free l.free
  perm : (l.active ++ l.free).Perm (List.finRange 32)
  inverse : ∀ x ∈ l.active, ∀ y ∈ l.active, p.next x = some y ↔ p.prev y = some x

/-- The invariant of the operations. -/
structure Represents (p : WpPool) (l : WpLists) : Prop where
  active : Doubly p.next p.prev p.head l.active
  free : Chain p.next p.free l.free
  perm : (l.active ++ l.free).Perm (List.finRange 32)
  no : p.no = number

/-! ## One operation -/

variable {p : WpPool} {l : WpLists} {w : Fin 32}

theorem Represents.nodup (h : p.Represents l) : (l.active ++ l.free).Nodup :=
  h.perm.nodup_iff.mpr (List.nodup_finRange 32)

theorem Represents.integrity (h : p.Represents l) : p.Integrity l where
  active := h.active.chain
  free := h.free
  perm := h.perm
  inverse := fun _ hx _ hy => h.active.next_eq_some_iff hx hy

/-- After `init_wp_pool`, all nodes are free. -/
theorem initWpPool_represents : initWpPool.Represents WpLists.init where
  active := ⟨rfl, trivial, List.nodup_nil⟩
  free := by
    have hstart : initWpPool.free = (List.finRange 32).head? := by decide
    have hnext : ∀ i : Fin 32, initWpPool.next i = (List.finRange 32)[i.val + 1]? := by decide
    -- The list from node `k` on, for every `k`.
    have hfrom : ∀ n k, k + n = 32 →
        Chain initWpPool.next ((List.finRange 32)[k]?) ((List.finRange 32).drop k) := by
      intro n
      induction n with
      | zero =>
        intro k hk
        rw [List.drop_of_length_le (by simp; omega)]
        exact List.getElem?_eq_none (by simp; omega)
      | succ n ih =>
        intro k hk
        have hlt : k < (List.finRange 32).length := by simp; omega
        rw [List.drop_eq_getElem_cons hlt, List.getElem?_eq_getElem hlt]
        refine ⟨rfl, ?_⟩
        rw [hnext, List.getElem_finRange]
        exact ih (k + 1) (by omega)
    exact hfrom 32 0 rfl
  perm := List.Perm.refl _
  no := rfl

/-- `new_wp` takes a free node and puts it in front of the active ones. -/
theorem Represents.newWp (h : p.Represents l) (hf : l.free ≠ []) :
    ∃ w p', p.newWp = some (w, p') ∧ p'.head = some w ∧ p'.Represents l.new ∧ p.SameData p' := by
  obtain ⟨active, free⟩ := l
  obtain ⟨hactive, hfree, hperm, hno⟩ := h
  rcases free with - | ⟨w, free⟩
  · exact absurd rfl hf
  · have hnodup : (active ++ w :: free).Nodup := hperm.nodup_iff.mpr (List.nodup_finRange 32)
    obtain ⟨-, hwfree, hdisj⟩ := List.nodup_append.mp hnodup
    have hwa : w ∉ active := fun hw => hdisj w hw w (List.mem_cons_self ..) rfl
    have hwf : ∀ x ∈ free, x ≠ w := fun x hx he => (List.nodup_cons.mp hwfree).1 (by rwa [← he])
    have hperm' : (w :: active ++ free).Perm (List.finRange 32) :=
      (List.perm_middle.symm).trans hperm
    -- What is behind the first free node stays a list.
    have hchain : ∀ v, Chain (Function.update p.next w v) (p.next w) free := fun v =>
      hfree.2.congr fun x hx => Function.update_of_ne (hwf x hx) _ _
    have hp : p.free = some w := hfree.1
    -- `head` and `free_` are written first, before the pointers of the node.
    generalize hp₁ : ({ p with head := some w, free := p.next w } : WpPool) = p₁
    have hnext₁ : p₁.next = p.next := by rw [← hp₁]; rfl
    have hprev₁ : p₁.prev = p.prev := by rw [← hp₁]; rfl
    have hdata₁ : p.SameData p₁ := by rw [← hp₁]; exact ⟨rfl, rfl, rfl⟩
    have hhead₁ : p₁.head = some w := by rw [← hp₁]
    have hfree₁ : p₁.free = p.next w := by rw [← hp₁]
    unfold WpPool.newWp
    rcases active with - | ⟨t, active⟩
    · -- No node is active.
      have hhead : p.head = none := hactive.chain
      simp only [hp, hhead, hp₁]
      have hdata : p.SameData ((p₁.setNext w none).setPrev w none) :=
        (hdata₁.trans (setNext_sameData _ _ _)).trans (setPrev_sameData _ _ _)
      refine ⟨_, _, rfl, hhead₁, ⟨?_, ?_, hperm', hdata.1.trans hno⟩, hdata⟩
      · rw [setPrev_head, setNext_head, hhead₁]
        exact Doubly.singleton (by simp) (by simp)
      · rw [setPrev_next, setNext_next, setPrev_free, setNext_free, hnext₁, hfree₁]
        exact hchain none
    · -- The first active node gets the new one in front of it.
      have hhead : p.head = some t := hactive.chain.1
      simp only [hp, hhead, hp₁]
      have hdata : p.SameData
          (((p₁.setNext w (some t)).setPrev w none).setPrev t (some w)) :=
        ((hdata₁.trans (setNext_sameData _ _ _)).trans (setPrev_sameData _ _ _)).trans
          (setPrev_sameData _ _ _)
      refine ⟨_, _, rfl, hhead₁, ⟨?_, ?_, hperm', hdata.1.trans hno⟩, hdata⟩
      · simp only [setPrev_next, setNext_next, setPrev_prev, setNext_prev, setPrev_head,
          setNext_head, hnext₁, hprev₁, hhead₁]
        exact hactive.push hwa
      · simp only [setPrev_next, setNext_next, setPrev_free, setNext_free, hnext₁, hfree₁]
        exact hchain (some t)

/-- The first half of `free_wp` takes out the first active node. -/
theorem unlink_first {xs : List (Fin 32)} (h : Doubly p.next p.prev p.head (w :: xs)) :
    ∃ p', p.unlink w = some p' ∧ Doubly p'.next p'.prev p'.head xs ∧ p'.free = p.free ∧
      p'.next = p.next ∧ p.SameData p' := by
  have hhead : p.head = some w := h.chain.1
  unfold unlink
  rw [if_pos hhead]
  rcases xs with - | ⟨y, xs⟩
  · have hnext : p.next w = none := h.chain.2
    have hpop := h.pop_singleton
    rw [hnext] at hpop
    simp only [hnext]
    exact ⟨_, rfl, hpop, rfl, rfl, ⟨rfl, rfl, rfl⟩⟩
  · have hnext : p.next w = some y := h.chain.2.1
    have hpop := h.pop
    rw [hnext] at hpop
    simp only [hnext]
    refine ⟨_, rfl, ?_, rfl, setPrev_next _ _ _, setPrev_sameData _ _ _⟩
    rw [setPrev_next, setPrev_prev]
    exact hpop

section

variable {xs r : List (Fin 32)} {q : Fin 32} (h : Doubly p.next p.prev p.head (xs ++ q :: w :: r))
include h

/-- The pointers around an active node `w` behind another one, `q`. -/
theorem around : p.head ≠ some w ∧ p.prev w = some q ∧ p.next w = r.head? ∧
    ∀ v, (p.setNext q v).next w = r.head? := by
  have hnext : p.next w = r.head? := h.chain.drop.2.head
  obtain ⟨-, hqwr, hdisj⟩ := List.nodup_append.mp h.nodup
  have hwq : w ≠ q := fun he =>
    (List.nodup_cons.mp hqwr).1 (by rw [← he]; exact List.mem_cons_self ..)
  refine ⟨fun he => ?_, h.back.drop.1, hnext, fun v => ?_⟩
  · rw [h.chain.head] at he
    rcases xs with - | ⟨x, xs⟩
    · exact hwq (Option.some.inj he).symm
    · have hxw : x = w := Option.some.inj he
      exact hdisj x (List.mem_cons_self ..) w (by simp) hxw
  · rw [setNext_next, Function.update_of_ne hwq, hnext]

/-- It takes out a node with others before and behind it. -/
theorem unlink_inner (hr : r ≠ []) :
    ∃ p', p.unlink w = some p' ∧ Doubly p'.next p'.prev p'.head (xs ++ q :: r) ∧
      p'.free = p.free ∧ (∀ x, x ≠ q → p'.next x = p.next x) ∧ p.SameData p' := by
  obtain ⟨hne, hprev, hnext, hnext'⟩ := around h
  rcases r with - | ⟨y, r⟩
  · exact absurd rfl hr
  · unfold unlink
    rw [if_neg hne]
    simp only [hprev, hnext, hnext', List.head?_cons, setNext_prev]
    refine ⟨_, rfl, ?_, rfl, fun x hx => ?_,
      (setNext_sameData _ _ _).trans (setPrev_sameData _ _ _)⟩
    · simp only [setPrev_next, setPrev_prev, setNext_next, setNext_prev, setPrev_head, setNext_head]
      exact h.remove
    · rw [setPrev_next, setNext_next, Function.update_of_ne hx]

/-- It fails at the last node: there is none behind it. -/
theorem unlink_last (hr : r = []) : p.unlink w = none := by
  obtain ⟨hne, hprev, hnext, hnext'⟩ := around h
  subst hr
  unfold unlink
  rw [if_neg hne]
  simp only [hprev, hnext, hnext', List.head?_nil]

end

/-- The first half of `free_wp` takes an active node out, unless it is the last one and not the
first. -/
theorem unlink_eq {xs : List (Fin 32)} (h : Doubly p.next p.prev p.head xs) (hw : w ∈ xs) :
    (xs.head? = some w ∨ xs.getLast? ≠ some w →
      ∃ p', p.unlink w = some p' ∧ Doubly p'.next p'.prev p'.head (xs.erase w) ∧
        p'.free = p.free ∧ (∀ x, x ∉ xs → p'.next x = p.next x) ∧ p.SameData p') ∧
      (¬ (xs.head? = some w ∨ xs.getLast? ≠ some w) → p.unlink w = none) := by
  obtain ⟨l, r, rfl, hwl⟩ := List.eq_append_cons_of_mem hw
  rcases List.eq_nil_or_concat l with rfl | ⟨xs, q, rfl⟩
  · refine ⟨fun _ => ?_, fun hn => absurd (Or.inl rfl) hn⟩
    -- The first active node.
    obtain ⟨p', hp', hd, hf, hn, hs⟩ := unlink_first h
    refine ⟨p', hp', ?_, hf, fun x _ => by rw [hn], hs⟩
    rwa [List.nil_append, List.erase_cons_head]
  · rw [List.erase_append_right _ hwl, List.erase_cons_head]
    rw [List.concat_eq_append, List.append_assoc] at h ⊢
    have hfirst : (xs ++ ([q] ++ w :: r)).head? ≠ some w := by
      rw [← h.chain.head]
      exact (around h).1
    by_cases hr : r = []
    · -- Behind the last node there is none.
      have hlast : (xs ++ ([q] ++ w :: r)).getLast? = some w := by
        rw [hr, ← List.append_assoc]
        exact List.getLast?_concat
      exact ⟨fun hs => absurd hlast (hs.resolve_left hfirst), fun _ => unlink_last h hr⟩
    · -- An inner node: the nodes are different, so the last one is another one.
      have hlast : (xs ++ ([q] ++ w :: r)).getLast? ≠ some w := by
        intro he
        rw [← List.append_assoc, List.getLast?_append_of_ne_nil _ (by simp),
          List.getLast?_cons_of_ne_nil hr] at he
        obtain ⟨-, hqwr, -⟩ := List.nodup_append.mp h.nodup
        exact (List.nodup_cons.mp (List.nodup_cons.mp hqwr).2).1 (List.mem_of_getLast? he)
      refine ⟨fun _ => ?_, fun hn => absurd (Or.inr hlast) hn⟩
      obtain ⟨p', hp', hd, hf, hn, hs⟩ := unlink_inner h hr
      refine ⟨p', hp', ?_, hf, fun x hx => hn x fun hxq => hx (by rw [hxq]; simp), hs⟩
      rw [List.append_assoc]
      exact hd

/-- The second half of `free_wp` puts a node in front of the free ones, if there are any. -/
theorem pushFree_eq {xs free : List (Fin 32)} (h : Doubly p.next p.prev p.head xs)
    (hf : Chain p.next p.free free) (hw : w ∉ xs) (hwf : w ∉ free)
    (hdisj : ∀ x ∈ xs, x ∉ free) :
    (free ≠ [] → ∃ p', p.pushFree w = some p' ∧ Doubly p'.next p'.prev p'.head xs ∧
        Chain p'.next p'.free (w :: free) ∧ p.SameData p') ∧
      (free = [] → p.pushFree w = none) := by
  have hp : ((p.setNext w p.free).setPrev w none).free = free.head? := hf.head
  unfold pushFree
  rcases free with - | ⟨f, free⟩
  · refine ⟨fun hne => absurd rfl hne, fun _ => ?_⟩
    -- The field `prev` of a null pointer.
    simp only [hp, List.head?_nil]
  · refine ⟨fun _ => ?_, fun he => absurd he (by simp)⟩
    simp only [hp, List.head?_cons]
    have hdata : p.SameData (((p.setNext w p.free).setPrev w none).setPrev f (some w)) :=
      ((setNext_sameData _ _ _).trans (setPrev_sameData _ _ _)).trans (setPrev_sameData _ _ _)
    -- The active nodes are neither the new free node nor the one behind it.
    have hne : ∀ x ∈ xs, x ≠ w ∧ x ≠ f := fun x hx =>
      ⟨fun he => hw (by rwa [← he]), fun he => hdisj x hx (by rw [he]; exact List.mem_cons_self ..)⟩
    generalize hp₁ : ((p.setNext w p.free).setPrev w none).setPrev f (some w) = p₁ at hdata ⊢
    have hnext₁ : p₁.next = Function.update p.next w p.free := by
      rw [← hp₁, setPrev_next, setPrev_next, setNext_next]
    have hprev₁ : p₁.prev =
        Function.update (Function.update p.prev w none) f (some w) := by
      rw [← hp₁, setPrev_prev, setPrev_prev, setNext_prev]
    have hhead₁ : p₁.head = p.head := by rw [← hp₁]; rfl
    refine ⟨_, rfl, ?_, ⟨rfl, ?_⟩, hdata⟩
    · show Doubly p₁.next p₁.prev p₁.head xs
      rw [hnext₁, hprev₁, hhead₁]
      refine h.congr (fun x hx => Function.update_of_ne (hne x hx).1 _ _) fun x hx => ?_
      rw [Function.update_of_ne (hne x hx).2, Function.update_of_ne (hne x hx).1]
    · show Chain p₁.next (p₁.next w) (f :: free)
      rw [hnext₁, Function.update_self]
      exact hf.congr fun x hx => Function.update_of_ne (fun he => hwf (by rwa [← he])) _ _

/-- `free_wp` removes an active node if it is removable, and fails otherwise. -/
theorem Represents.freeWp (h : p.Represents l) (hw : w ∈ l.active) :
    (l.Removable w → ∃ p', p.freeWp w = some p' ∧ p'.Represents (l.remove w) ∧ p.SameData p') ∧
      (¬ l.Removable w → p.freeWp w = none) := by
  obtain ⟨hgo, hstop⟩ := unlink_eq h.active hw
  obtain ⟨hnodup, -, hdisj⟩ := List.nodup_append.mp h.nodup
  have hnotfree : ∀ x ∈ l.active, x ∉ l.free := fun x hx hx' => hdisj x hx x hx' rfl
  unfold WpPool.freeWp
  by_cases hr : l.active.head? = some w ∨ l.active.getLast? ≠ some w
  · obtain ⟨p₁, hp₁, hd₁, hf₁, hn₁, hs₁⟩ := hgo hr
    -- The first half writes nothing in the free nodes.
    have hfree : Chain p₁.next p₁.free l.free := by
      rw [hf₁]
      exact h.free.congr fun x hx => hn₁ x fun hx' => hnotfree x hx' hx
    obtain ⟨hpush, hnone⟩ := pushFree_eq hd₁ hfree (List.Nodup.not_mem_erase hnodup)
      (hnotfree w hw) fun x hx => hnotfree x (List.mem_of_mem_erase hx)
    rw [hp₁, Option.bind_some]
    constructor
    · rintro ⟨hne, -⟩
      obtain ⟨p₂, hp₂, hd₂, hf₂, hs₂⟩ := hpush hne
      have hdata := hs₁.trans hs₂
      refine ⟨p₂, hp₂, ⟨hd₂, hf₂, ?_, hdata.1.trans h.no⟩, hdata⟩
      -- The node changes its list.
      calc (l.active.erase w ++ w :: l.free).Perm (w :: (l.active.erase w ++ l.free)) :=
            List.perm_middle
        _ = w :: l.active.erase w ++ l.free := rfl
        List.Perm _ (l.active ++ l.free) := (List.perm_cons_erase hw).symm.append_right _
        List.Perm _ (List.finRange 32) := h.perm
    · intro hn
      refine hnone ?_
      by_contra hne
      exact hn ⟨hne, hr⟩
  · refine ⟨fun hs => absurd hs.2 hr, fun _ => ?_⟩
    rw [hstop hr]
    rfl

/-- The loop of `delete_wp` finds the node with the number. -/
theorem findWp_eq (hno : p.no = number) (no : Word) {xs : List (Fin 32)} {q : Option (Fin 32)}
    (h : Chain p.next q xs) {n : ℕ} (hn : xs.length ≤ n) :
    p.findWp no n q = some (xs.find? fun w => number w = no) := by
  induction xs generalizing q n with
  | nil =>
    have hq : q = none := h
    rw [hq, findWp, List.find?_nil]
  | cons x xs ih =>
    obtain ⟨n, rfl⟩ : ∃ m, n = m + 1 := ⟨n - 1, by rw [List.length_cons] at hn; omega⟩
    rw [h.1, findWp, hno, List.find?_cons]
    by_cases hx : number x = no
    · simp [hx]
    · rw [if_neg hx, ih h.2 (by rw [List.length_cons] at hn; omega)]
      simp [hx]

/-- There are at most 32 active nodes. -/
theorem Represents.length_le (h : p.Represents l) : l.active.length ≤ 32 := by
  have hlen := h.perm.length_eq
  rw [List.length_append, List.length_finRange] at hlen
  omega

/-- `delete_wp` removes the active node with the number if there is one and it is removable. -/
theorem Represents.deleteWp (h : p.Represents l) (no : Word) :
    (l.Safe (.delete no) →
        ∃ p', p.deleteWp no = some p' ∧ p'.Represents (l.op (.delete no)) ∧ p.SameData p') ∧
      (¬ l.Safe (.delete no) → p.deleteWp no = none) := by
  have hfind : p.findWp no 32 p.head = some (l.find no) :=
    findWp_eq h.no no h.active.chain h.length_le
  unfold WpPool.deleteWp
  rcases hf : l.find no with - | w
  · have hop : l.op (.delete no) = l := by
      show (match l.find no with | none => l | some w => l.remove w) = l
      rw [hf]
    have hsafe : l.Safe (.delete no) := fun w hw => absurd (hf.symm.trans hw) (by simp)
    simp only [hfind, hf, hop]
    exact ⟨fun _ => ⟨p, rfl, h, rfl, rfl, rfl⟩, fun hn => absurd hsafe hn⟩
  · have hop : l.op (.delete no) = l.remove w := by
      show (match l.find no with | none => l | some w => l.remove w) = l.remove w
      rw [hf]
    have hsafe : l.Safe (.delete no) ↔ l.Removable w := by
      refine ⟨fun hs => hs w hf, fun hr w' hw' => ?_⟩
      rwa [← Option.some.inj (hf.symm.trans hw')]
    obtain ⟨hgo, hstop⟩ := h.freeWp (List.mem_of_find?_eq_some hf)
    simp only [hfind, hf, hop, hsafe]
    exact ⟨hgo, hstop⟩

/-! ## Sequences of operations -/

/-- One operation. -/
theorem Represents.op (h : p.Represents l) {o : WpOp} (hl : l.Legal o) :
    (l.Safe o → ∃ p', p.op o = some p' ∧ p'.Represents (l.op o)) ∧
      (¬ l.Safe o → p.op o = none) := by
  rcases o with - | w | no
  · obtain ⟨w, p', hp', -, hr, -⟩ := h.newWp hl
    refine ⟨fun _ => ⟨p', ?_, hr⟩, fun hn => absurd trivial hn⟩
    rw [WpPool.op, hp']
    rfl
  · obtain ⟨hgo, hstop⟩ := h.freeWp hl
    refine ⟨fun hs => ?_, hstop⟩
    obtain ⟨p', hp', hr, -⟩ := hgo hs
    exact ⟨p', hp', hr⟩
  · obtain ⟨hgo, hstop⟩ := h.deleteWp no
    refine ⟨fun hs => ?_, hstop⟩
    obtain ⟨p', hp', hr, -⟩ := hgo hs
    exact ⟨p', hp', hr⟩

/-- A sequence of operations. -/
theorem Represents.run (ops : List WpOp) (h : p.Represents l)
    (hl : l.Along WpLists.Legal ops) :
    (l.Along WpLists.Safe ops → ∃ p', p.run ops = some p' ∧ p'.Represents (l.run ops)) ∧
      (¬ l.Along WpLists.Safe ops → p.run ops = none) := by
  induction ops generalizing p l with
  | nil => exact ⟨fun _ => ⟨p, rfl, h⟩, fun hn => absurd trivial hn⟩
  | cons o ops ih =>
    obtain ⟨hgo, hstop⟩ := h.op hl.1
    rw [WpPool.run]
    by_cases hs : l.Safe o
    · obtain ⟨p', hp', hr⟩ := hgo hs
      obtain ⟨hgo', hstop'⟩ := ih hr hl.2
      rw [hp', Option.bind_some]
      exact ⟨fun ha => hgo' ha.2, fun hn => hstop' fun ha => hn ⟨hs, ha⟩⟩
    · refine ⟨fun ha => absurd ha.1 hs, fun _ => ?_⟩
      rw [hstop hs]
      rfl

/-- For every sequence of operations after `init_wp_pool` in which the callers do their part: no
operation dereferences a null pointer, and the pool holds the lists that the operations are to
leave, if and only if every node that is removed is the first active one or not the last, and there
is a free node before it is. -/
theorem integrity_iff {ops : List WpOp} (hl : WpLists.init.Along WpLists.Legal ops) :
    (∃ p, initWpPool.run ops = some p ∧ p.Integrity (WpLists.init.run ops)) ↔
      WpLists.init.Along WpLists.Safe ops := by
  obtain ⟨hgo, hstop⟩ := initWpPool_represents.run ops hl
  constructor
  · rintro ⟨p, hp, -⟩
    by_contra hn
    exact absurd (hp.symm.trans (hstop hn)) (by simp)
  · intro hs
    obtain ⟨p, hp, hr⟩ := hgo hs
    exact ⟨p, hp, hr.integrity⟩

/-- Two watchpoints are made, and the second one is deleted: it is the first active one. -/
theorem integrity_iff_delete_first :
    ∃ p, initWpPool.run [.new, .new, .delete 1#32] = some p ∧
      p.Integrity (WpLists.init.run [.new, .new, .delete 1#32]) :=
  (integrity_iff (by decide)).mpr (by decide)

/-- Two watchpoints are made, and the first one is deleted: it is the last active one, and
`wp->next->prev` dereferences a null pointer. -/
theorem delete_last_fails :
    WpLists.init.Along WpLists.Legal [.new, .new, .delete 0#32] ∧
      ¬ ∃ p, initWpPool.run [.new, .new, .delete 0#32] = some p ∧
        p.Integrity (WpLists.init.run [.new, .new, .delete 0#32]) := by
  refine ⟨by decide, ?_⟩
  rintro ⟨p, hp, -⟩
  have hnone : (initWpPool.run [.new, .new, .delete 0#32]).isNone = true := by decide
  rw [hp] at hnone
  exact Bool.noConfusion hnone

end WpPool

end RV32Pipeline
