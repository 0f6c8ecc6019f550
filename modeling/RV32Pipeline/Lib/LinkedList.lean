import Mathlib.Data.List.Nodup

/-!
# Doubly linked lists

Nodes of a type `N` with two pointer fields, `next` and `prev`, each a function to `Option N` where
`none` is a null pointer. `Chain` says which nodes a list passes from a first pointer on, and `Back`
that the backward pointers go to the node before. The operations are those of a program that
overwrites single fields (`Function.update`): a node is put in front, the first node is taken off,
or an inner one.
-/

namespace LinkedList

variable {N : Type*}

/-- The pointer `p` leads to the nodes `xs`, one after another, and the last one to nothing. -/
def Chain (next : N → Option N) : Option N → List N → Prop
  | p, [] => p = none
  | p, x :: xs => p = some x ∧ Chain next (next x) xs

/-- The backward pointer of every node goes to the one before, and that of the first to `q`. -/
def Back (prev : N → Option N) : Option N → List N → Prop
  | _, [] => True
  | q, x :: xs => prev x = q ∧ Back prev (some x) xs

/-- A doubly linked list with the nodes `xs`. -/
structure Doubly (next prev : N → Option N) (head : Option N) (xs : List N) : Prop where
  chain : Chain next head xs
  back : Back prev none xs
  nodup : xs.Nodup

section

variable {next next' prev prev' : N → Option N} {p q : Option N} {x y : N} {xs ys : List N}

theorem Chain.head (h : Chain next p xs) : p = xs.head? := by
  rcases xs with - | ⟨x, xs⟩
  · exact h
  · exact h.1

/-- The chain depends on the pointers of its nodes only. -/
theorem Chain.congr (h : Chain next p xs) (hx : ∀ x ∈ xs, next' x = next x) :
    Chain next' p xs := by
  induction xs generalizing p with
  | nil => exact h
  | cons x xs ih =>
    refine ⟨h.1, ?_⟩
    rw [hx x (List.mem_cons_self ..)]
    exact ih h.2 fun y hy => hx y (List.mem_cons_of_mem _ hy)

theorem Back.congr (h : Back prev q xs) (hx : ∀ x ∈ xs, prev' x = prev x) : Back prev' q xs := by
  induction xs generalizing q with
  | nil => trivial
  | cons x xs ih =>
    refine ⟨?_, ih h.2 fun y hy => hx y (List.mem_cons_of_mem _ hy)⟩
    rw [hx x (List.mem_cons_self ..)]
    exact h.1

/-- A pointer leads to one list of nodes only. -/
theorem Chain.unique (h : Chain next p xs) (h' : Chain next p ys) : xs = ys := by
  induction xs generalizing p ys with
  | nil =>
    rcases ys with - | ⟨y, ys⟩
    · rfl
    · have hp : p = none := h
      exact absurd (hp.symm.trans h'.1) (by simp)
  | cons x xs ih =>
    rcases ys with - | ⟨y, ys⟩
    · have hp : p = none := h'
      exact absurd (hp.symm.trans h.1) (by simp)
    · have hxy : x = y := Option.some.inj (h.1.symm.trans h'.1)
      subst hxy
      rw [ih h.2 h'.2]

/-- The chain goes on behind some nodes. -/
theorem Chain.drop (h : Chain next p (xs ++ x :: ys)) : Chain next (next x) ys := by
  induction xs generalizing p with
  | nil => exact h.2
  | cons _ xs ih => exact ih h.2

/-- The pointer of a node goes to the next one. -/
theorem Chain.next_eq (h : Chain next p (xs ++ x :: ys)) : next x = ys.head? := h.drop.head

theorem Back.drop (h : Back prev q (xs ++ x :: ys)) : Back prev (some x) ys := by
  induction xs generalizing q with
  | nil => exact h.2
  | cons _ xs ih => exact ih h.2

/-- The backward pointer of a node goes to the one before. -/
theorem Back.prev_eq (h : Back prev q (xs ++ x :: ys)) : prev x = xs.getLast?.or q := by
  induction xs generalizing q with
  | nil => exact h.1
  | cons z xs ih =>
    rw [ih h.2, List.getLast?_cons]
    rcases xs.getLast? with - | w
    · rfl
    · rfl

/-- The two pointers of neighbours are inverse to each other. -/
theorem Doubly.next_eq_some_iff {head : Option N} (h : Doubly next prev head xs) (hx : x ∈ xs)
    (hy : y ∈ xs) : next x = some y ↔ prev y = some x := by
  constructor
  · intro hn
    obtain ⟨l, r, rfl⟩ := List.append_of_mem hx
    obtain ⟨r, rfl⟩ : ∃ r', r = y :: r' := by
      rw [h.chain.next_eq] at hn
      rcases r with - | ⟨z, r⟩
      · exact absurd hn (by simp)
      · exact ⟨r, by rw [← Option.some.inj hn]⟩
    exact h.back.drop.1
  · intro hp
    obtain ⟨l, r, rfl⟩ := List.append_of_mem hy
    rw [h.back.prev_eq, Option.or_none] at hp
    obtain ⟨l, rfl⟩ := List.getLast?_eq_some_iff.mp hp
    have hc : Chain next head (l ++ x :: (y :: r)) := by
      have := h.chain
      rwa [List.append_assoc] at this
    exact hc.next_eq

/-- Writing the pointers of other nodes changes nothing. -/
theorem Doubly.congr {head : Option N} (h : Doubly next prev head xs)
    (hn : ∀ x ∈ xs, next' x = next x) (hp : ∀ x ∈ xs, prev' x = prev x) :
    Doubly next' prev' head xs where
  chain := h.chain.congr hn
  back := h.back.congr hp
  nodup := h.nodup

/-- A node is put in front of an empty list. -/
theorem Doubly.singleton (hn : next x = none) (hp : prev x = none) :
    Doubly next prev (some x) [x] where
  chain := ⟨rfl, hn⟩
  back := ⟨hp, trivial⟩
  nodup := List.nodup_singleton x

/-- The only node is taken off. -/
theorem Doubly.pop_singleton {head : Option N} (h : Doubly next prev head [x]) :
    Doubly next prev (next x) [] where
  chain := h.chain.2
  back := trivial
  nodup := List.nodup_nil

end

section

variable [DecidableEq N] {next prev : N → Option N} {head : Option N} {x y z : N} {xs ys : List N}

/-- A node is put in front of the first one. -/
theorem Doubly.push (h : Doubly next prev head (y :: xs)) (hx : x ∉ y :: xs) :
    Doubly (Function.update next x (some y))
      (Function.update (Function.update prev x none) y (some x)) (some x) (x :: y :: xs) where
  chain := by
    refine ⟨rfl, ?_⟩
    rw [Function.update_self]
    have hc : Chain next (some y) (y :: xs) := ⟨rfl, h.chain.2⟩
    exact hc.congr fun z hz => Function.update_of_ne (fun he => hx (by rwa [← he])) _ _
  back := by
    have hxy : x ≠ y := fun he => hx (by rw [he]; exact List.mem_cons_self ..)
    refine ⟨?_, ?_, h.back.2.congr fun z hz => ?_⟩
    · rw [Function.update_of_ne hxy, Function.update_self]
    · rw [Function.update_self]
    · have hzy : z ≠ y := fun he => (List.nodup_cons.mp h.nodup).1 (by rwa [← he])
      have hzx : z ≠ x := fun he => hx (by rw [← he]; exact List.mem_cons_of_mem _ hz)
      rw [Function.update_of_ne hzy, Function.update_of_ne hzx]
  nodup := List.nodup_cons.mpr ⟨hx, h.nodup⟩

/-- The first node is taken off. -/
theorem Doubly.pop (h : Doubly next prev head (x :: y :: xs)) :
    Doubly next (Function.update prev y none) (next x) (y :: xs) where
  chain := h.chain.2
  back := by
    obtain ⟨-, hys⟩ := List.nodup_cons.mp h.nodup
    refine ⟨Function.update_self .., h.back.2.2.congr fun z hz => ?_⟩
    exact Function.update_of_ne (fun he => (List.nodup_cons.mp hys).1 (by rwa [← he])) _ _
  nodup := (List.nodup_cons.mp h.nodup).2

/-- A node between two others is taken out. -/
theorem Doubly.remove (h : Doubly next prev head (xs ++ x :: y :: z :: ys)) :
    Doubly (Function.update next x (some z)) (Function.update prev z (some x)) head
      (xs ++ x :: z :: ys) := by
  have hnodup : (xs ++ x :: z :: ys).Nodup :=
    h.nodup.sublist ((List.Sublist.refl xs).append (.cons_cons x (List.sublist_cons_self y _)))
  obtain ⟨-, hxzs, hdisj⟩ := List.nodup_append.mp hnodup
  obtain ⟨hx, hzs⟩ := List.nodup_cons.mp hxzs
  obtain ⟨hz, -⟩ := List.nodup_cons.mp hzs
  have hxz : x ≠ z := fun he => hx (by rw [he]; exact List.mem_cons_self ..)
  -- The pointers of the nodes up to `x`, and of those behind `z`, are not written.
  have hnext : ∀ w ∈ z :: ys, Function.update next x (some z) w = next w := fun w hw =>
    Function.update_of_ne (fun he => hx (by rwa [← he])) _ _
  have hprev : ∀ w ∈ ys, Function.update prev z (some x) w = prev w := fun w hw =>
    Function.update_of_ne (fun he => hz (by rwa [← he])) _ _
  refine ⟨?_, ?_, hnodup⟩
  · have hz' : Chain next (some z) (z :: ys) := ⟨rfl, h.chain.drop.2.2⟩
    -- By induction on the nodes before `x`, from any first pointer.
    have hcut : ∀ {p : Option N} {l : List N}, Chain next p (l ++ x :: y :: z :: ys) →
        (∀ w ∈ l, w ≠ x) → Chain (Function.update next x (some z)) p (l ++ x :: z :: ys) := by
      intro p l hl hne
      induction l generalizing p with
      | nil =>
        refine ⟨hl.1, ?_⟩
        rw [Function.update_self]
        exact hz'.congr hnext
      | cons w l ih =>
        refine ⟨hl.1, ?_⟩
        rw [Function.update_of_ne (hne w (List.mem_cons_self ..))]
        exact ih hl.2 fun v hv => hne v (List.mem_cons_of_mem _ hv)
    exact hcut h.chain fun w hw => hdisj w hw x (List.mem_cons_self ..)
  · -- The same for the backward pointers.
    have hcut : ∀ {q : Option N} {l : List N}, Back prev q (l ++ x :: y :: z :: ys) →
        (∀ w ∈ l, w ≠ z) → Back (Function.update prev z (some x)) q (l ++ x :: z :: ys) := by
      intro q l hl hne
      induction l generalizing q with
      | nil =>
        refine ⟨?_, Function.update_self .., hl.2.2.2.congr hprev⟩
        rw [Function.update_of_ne hxz]
        exact hl.1
      | cons w l ih =>
        refine ⟨?_, ih hl.2 fun v hv => hne v (List.mem_cons_of_mem _ hv)⟩
        rw [Function.update_of_ne (hne w (List.mem_cons_self ..))]
        exact hl.1
    exact hcut h.back fun w hw => hdisj w hw z (List.mem_cons_of_mem _ (List.mem_cons_self ..))

end

end LinkedList
