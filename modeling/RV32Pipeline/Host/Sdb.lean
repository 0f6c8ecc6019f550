import RV32Pipeline.Host.Command
import RV32Pipeline.Host.ExprCorrect
import RV32Pipeline.Host.Watchpoint

/-!
# The commands of the debugger that set and check watchpoints

`cmd_w` and `cmd_d` of `sdb.c`, and `check_wp`, which `execute` calls after every instruction.
`cmd_w` allocates a node before it looks at its argument, and without one the node stays active with
whatever expression it had. `check_wp` stops at the first expression that is none, so such a node in
front disables all older ones. With an argument in every `w` this cannot happen: whether an
expression has a value depends on its tokens only.
-/

namespace RV32Pipeline

open LinkedList

/-! ## Expressions that have a value -/

theorem evalToken_ok_or_fault {g : Guest} {t : Token} {v : Word} (h : evalToken g t = .ok v)
    (g' : Guest) : evalToken g' t = .error .fault ∨ ∃ v', evalToken g' t = .ok v' := by
  unfold evalToken at h ⊢
  rcases t with ⟨type, str⟩
  cases type <;> first | exact Or.inr ⟨_, rfl⟩ | exact absurd h (by simp)

theorem paddrRead_ok_or_fault (g : Guest) (addr : Word) (len i : ℕ) (data : Word) :
    paddrRead g addr len i data = .error .fault ∨ ∃ v, paddrRead g addr len i data = .ok v := by
  induction len generalizing i data with
  | zero => exact Or.inr ⟨data, rfl⟩
  | succ len ih =>
    rw [paddrRead, pmemByte]
    by_cases hb : Host.memoryOutOfBound (addr + BitVec.ofNat 32 i) = true
    · simp only [hb, if_true]
      exact Or.inl trivial
    · simp only [hb, if_false, Bool.false_eq_true]
      exact ih _ _

theorem evalUnary_ok_or_fault (g : Guest) (t : TokenType) (x : Word) :
    evalUnary g t x = .error .fault ∨ ∃ v, evalUnary g t x = .ok v := by
  unfold evalUnary
  split_ifs
  · exact Or.inr ⟨_, rfl⟩
  · exact paddrRead_ok_or_fault g x 4 0 0#32

theorem evalBinary_ok_or_fault {t : TokenType} {x y v : Word} (h : evalBinary t x y = .ok v)
    (x' y' : Word) : evalBinary t x' y' = .error .fault ∨ ∃ v', evalBinary t x' y' = .ok v' := by
  cases t
  case slash =>
    by_cases hy : y' = 0#32
    · exact Or.inl (if_pos hy)
    · exact Or.inr ⟨_, if_neg hy⟩
  all_goals first | exact Or.inr ⟨_, rfl⟩ | exact absurd h (by simp [evalBinary])

/-- The errors of `eval` besides `fault` are those of the tokens: what has a value once has one
wherever C defines it. -/
theorem eval_ok_or_fault {g : Guest} {w : List Token} {v : Word} (h : eval g w = .ok v)
    (g' : Guest) : eval g' w = .error .fault ∨ ∃ v', eval g' w = .ok v' := by
  induction w using window_induction generalizing v with
  | nil =>
    rw [eval] at h
    exact absurd h (by simp)
  | single t =>
    rw [eval] at h ⊢
    exact evalToken_ok_or_fault h g'
  | invalid w hw hd =>
    rw [eval_invalid hw hd] at h
    exact absurd h (by simp)
  | misnested w hd hn =>
    rw [eval_misnested hd hn] at h
    exact absurd h (by simp)
  | paren o c w ho hc hw ih =>
    rw [eval_paren ho hc hw] at h ⊢
    exact ih h
  | noOperator w hw hc hout =>
    rw [eval_noOperator hw hc hout] at h
    exact absurd h (by simp)
  | main wl t wr hw hm ihl ihr =>
    rw [eval_main hw hm] at h ⊢
    rcases hy : eval g wr with err | y
    · rw [hy] at h
      exact absurd h (by simp [Except.bind])
    simp only [hy, Except.bind] at h
    -- The right operand comes first, and its fault is that of the window.
    rcases ihr hy with hy' | ⟨y', hy'⟩
    · rw [hy']
      exact Or.inl rfl
    simp only [hy', Except.bind]
    by_cases hop : t.type.level = 1
    · rw [if_pos hop]
      exact evalUnary_ok_or_fault g' t.type y'
    rw [if_neg hop] at h ⊢
    rcases hx : eval g wl with err | x
    · rw [hx] at h
      exact absurd h (by simp)
    simp only [hx] at h
    rcases ihl hx with hx' | ⟨x', hx'⟩
    · rw [hx']
      exact Or.inl rfl
    · simp only [hx']
      exact evalBinary_ok_or_fault h x' y'

theorem expr_ok_or_fault {g : Guest} {e : List Char} {v : Word} (h : expr g e = .ok v)
    (g' : Guest) : expr g' e = .error .fault ∨ ∃ v', expr g' e = .ok v' := by
  unfold expr at h ⊢
  rcases hm : makeToken e [] with err | tokens
  · simp only [hm] at h
    exact absurd h (by simp)
  · simp only [hm] at h ⊢
    exact eval_ok_or_fault h g'

/-! ## Commands -/

namespace WpPool

variable (g : Guest) (p : WpPool) (w i : Fin 32)

/-- The field `val` of a node is written. -/
def setVal (v : Word) : WpPool :=
  { p with wpPool := Function.update p.wpPool i { p.wpPool i with val := v } }

/-- The field `expr` of a node is written. -/
def setExpr (e : List Char) : WpPool :=
  { p with wpPool := Function.update p.wpPool i { p.wpPool i with expr := e } }

/-- The loop of `check_wp` at a pointer, with `is_changed`: `none` where an evaluation is not
defined. A list has at most 32 nodes, so the loop that passes `n` of them ends. -/
def checkLoop : ℕ → Option (Fin 32) → Bool → WpPool → Option (Bool × WpPool)
  | _, none, changed, p => some (changed, p)
  | 0, some _, _, _ => none
  | n + 1, some temp, changed, p =>
    match RV32Pipeline.expr g (p.expr temp) with
    | .error .fault => none
    | .error _ => some (false, p)
    | .ok val =>
      if val ≠ p.val temp then checkLoop n (p.next temp) true (p.setVal temp val)
      else checkLoop n (p.next temp) changed p

/-- The function `check_wp`. -/
def checkWp : Option (Bool × WpPool) := checkLoop g 32 p.head false p

/-- The function `cmd_w`: `expr` returns 0 if it fails, and the text of the expression has to fit
into its 128 bytes. -/
def cmdW (args : Option (List Char)) : Option WpPool :=
  match p.newWp with
  | none => none
  | some (wp, p) =>
    match args with
    | none => some p
    | some args =>
      match RV32Pipeline.expr g args with
      | .error .fault => none
      | .error _ => (p.setVal wp 0#32).freeWp wp
      | .ok val => if 128 ≤ args.length then none else some ((p.setVal wp val).setExpr wp args)

/-- The function `cmd_d`. -/
def cmdD (args : Option (List Char)) : Option WpPool :=
  match args with
  | none => some p
  | some args =>
    match safeAtoi args with
    | none => some p
    | some no => p.deleteWp no

end WpPool

/-- The pool of watchpoints, and the registers and the memory of the program. -/
structure Sdb where
  pool : WpPool
  guest : Guest

/-- A command: `w` or `d` with its argument, or one that executes instructions, after which the
registers and the memory are as in the list. -/
inductive SdbCmd where
  | w (args : Option (List Char))
  | d (args : Option (List Char))
  | step (guests : List Guest)

namespace Sdb

/-- The loop of `execute`, with the results of `check_wp`: it stops at the first that is true. -/
def execute : List Guest → Sdb → Option (List Bool × Sdb)
  | [], s => some ([], s)
  | g :: guests, s =>
    match s.pool.checkWp g with
    | none => none
    | some (true, p) => some ([true], ⟨p, g⟩)
    | some (false, p) => (execute guests ⟨p, g⟩).map fun r => (false :: r.1, r.2)

/-- A command, with the results of `check_wp` in it. -/
def command (s : Sdb) : SdbCmd → Option (List Bool × Sdb)
  | .w args => (s.pool.cmdW s.guest args).map fun p => ([], ⟨p, s.guest⟩)
  | .d args => (s.pool.cmdD args).map fun p => ([], ⟨p, s.guest⟩)
  | .step guests => s.execute guests

/-- A sequence of commands, with the results of `check_wp` in order. -/
def run (s : Sdb) : List SdbCmd → Option (List Bool × Sdb)
  | [] => some ([], s)
  | c :: cmds =>
    match s.command c with
    | none => none
    | some (log, s) => (s.run cmds).map fun r => (log ++ r.1, r.2)

end Sdb

/-! ## What the commands are to do -/

/-- The watchpoints that are set, by the numbers of their nodes, with their expressions and the
values that these had when they were last looked at. -/
structure Watches where
  lists : WpLists
  expr : Fin 32 → List Char
  val : Fin 32 → Word
  guest : Guest

/-- The value of an expression that has one. -/
def valueOf (g : Guest) (e : List Char) : Word :=
  match expr g e with
  | .ok v => v
  | .error _ => 0#32

namespace Watches

variable (s : Watches)

/-- A watchpoint for an expression is set if the expression has a value. -/
def set (e : List Char) : Watches :=
  match s.lists.free, RV32Pipeline.expr s.guest e with
  | w :: _, .ok v =>
    { s with lists := s.lists.new, expr := Function.update s.expr w e
             val := Function.update s.val w v }
  | _, _ => s

/-- The value of a watchpoint has changed. -/
def changed (g : Guest) : Bool := s.lists.active.any fun w => valueOf g (s.expr w) != s.val w

/-- The watchpoints store their current values. -/
def look (g : Guest) : Watches :=
  { s with val := fun w => if w ∈ s.lists.active then valueOf g (s.expr w) else s.val w
           guest := g }

/-- Instructions are executed up to one after which the value of a watchpoint has changed. -/
def execute : List Guest → Watches → List Bool × Watches
  | [], s => ([], s)
  | g :: guests, s =>
    if s.changed g then ([true], s.look g)
    else
      let r := execute guests (s.look g)
      (false :: r.1, r.2)

/-- A command, with what is reported in it. -/
def command : SdbCmd → List Bool × Watches
  | .w none => ([], s)
  | .w (some e) => ([], s.set e)
  | .d none => ([], s)
  | .d (some a) =>
    match safeAtoi a with
    | none => ([], s)
    | some no => ([], { s with lists := s.lists.op (.delete no) })
  | .step guests => execute guests s

/-- A sequence of commands, with what is reported. -/
def run (s : Watches) : List SdbCmd → List Bool × Watches
  | [] => ([], s)
  | c :: cmds =>
    let r := s.command c
    let r' := r.2.run cmds
    (r.1 ++ r'.1, r'.2)

/-- The user's part: a watchpoint is asked for if there is a free node, and arguments are shorter
than 128 characters. -/
def Legal : SdbCmd → Prop
  | .w args => s.lists.free ≠ [] ∧ ∀ e, args = some e → e.length < 128
  | .d args => ∀ a, args = some a → a.length < 128
  | .step _ => True

/-- The evaluation of an expression is defined. -/
def Defined (g : Guest) (e : List Char) : Prop := RV32Pipeline.expr g e ≠ .error .fault

/-- The evaluations of all watchpoints are defined in the states that are reached. -/
def ExecuteDefined : List Guest → Watches → Prop
  | [], _ => True
  | g :: guests, s =>
    (∀ w ∈ s.lists.active, Defined g (s.expr w)) ∧
      (s.changed g = false → ExecuteDefined guests (s.look g))

/-- The commands that work: `w` has an argument, and if that has no value there is another free
node; `d` removes a removable node; and all evaluations are defined. -/
def Safe : SdbCmd → Prop
  | .w none => False
  | .w (some e) => Defined s.guest e ∧
      ((∃ err, RV32Pipeline.expr s.guest e = .error err) → 2 ≤ s.lists.free.length)
  | .d none => True
  | .d (some a) => ∀ no, safeAtoi a = some no → s.lists.Safe (.delete no)
  | .step guests => ExecuteDefined guests s

/-- A property of the watchpoints and the command, at every command of a sequence. -/
def Along (P : Watches → SdbCmd → Prop) (s : Watches) : List SdbCmd → Prop
  | [] => True
  | c :: cmds => P s c ∧ (s.command c).2.Along P cmds

end Watches

/-- The nodes from `head` on are the watchpoints that are set, with their expressions and values. -/
structure WpPool.Shows (p : WpPool) (s : Watches) : Prop where
  active : Chain p.next p.head s.lists.active
  expr : ∀ w ∈ s.lists.active, p.expr w = s.expr w
  val : ∀ w ∈ s.lists.active, p.val w = s.val w

/-- The commands come to an end, `check_wp` has returned what is to be reported, and the pool shows
the watchpoints that are set. -/
def Sdb.Reports (x : Sdb) (s : Watches) (cmds : List SdbCmd) : Prop :=
  ∃ x', x.run cmds = some ((s.run cmds).1, x') ∧ x'.pool.Shows (s.run cmds).2

/-! ## `check_wp` -/

namespace WpPool

variable {p p' p'' : WpPool} {g : Guest}

/-- The pools are the same but for the values. -/
structure SameButVal (p p' : WpPool) : Prop where
  next : p'.next = p.next
  prev : p'.prev = p.prev
  head : p'.head = p.head
  free : p'.free = p.free
  no : p'.no = p.no
  expr : p'.expr = p.expr

theorem SameButVal.trans (h : p.SameButVal p') (h' : p'.SameButVal p'') : p.SameButVal p'' :=
  ⟨h'.next.trans h.next, h'.prev.trans h.prev, h'.head.trans h.head, h'.free.trans h.free,
    h'.no.trans h.no, h'.expr.trans h.expr⟩

theorem setVal_sameButVal (p : WpPool) (i : Fin 32) (v : Word) : p.SameButVal (p.setVal i v) :=
  ⟨(comp_update p i Wp.next _).trans (Function.update_eq_self ..),
    (comp_update p i Wp.prev _).trans (Function.update_eq_self ..), rfl, rfl,
    (comp_update p i Wp.no _).trans (Function.update_eq_self ..),
    (comp_update p i Wp.expr _).trans (Function.update_eq_self ..)⟩

theorem setVal_val (p : WpPool) (i : Fin 32) (v : Word) :
    (p.setVal i v).val = Function.update p.val i v := comp_update p i Wp.val _

/-- The lists depend on the pointers and the numbers only. -/
theorem Represents.of_eq {l : WpLists} (h : p.Represents l) (hnext : p'.next = p.next)
    (hprev : p'.prev = p.prev) (hhead : p'.head = p.head) (hfree : p'.free = p.free)
    (hno : p'.no = p.no) : p'.Represents l where
  active := by
    rw [hnext, hprev, hhead]
    exact h.active
  free := by
    rw [hnext, hfree]
    exact h.free
  perm := h.perm
  no := hno.trans h.no

/-- The lists do not depend on the values. -/
theorem Represents.sameButVal {l : WpLists} (h : p.Represents l) (hs : p.SameButVal p') :
    p'.Represents l := h.of_eq hs.next hs.prev hs.head hs.free hs.no

/-- Neither do they depend on the expressions. -/
theorem Represents.setExpr {l : WpLists} (h : p.Represents l) (i : Fin 32) (e : List Char) :
    (p.setExpr i e).Represents l :=
  h.of_eq ((comp_update p i Wp.next _).trans (Function.update_eq_self ..))
    ((comp_update p i Wp.prev _).trans (Function.update_eq_self ..)) rfl rfl
    ((comp_update p i Wp.no _).trans (Function.update_eq_self ..))

theorem setExpr_expr (p : WpPool) (i : Fin 32) (e : List Char) :
    (p.setExpr i e).expr = Function.update p.expr i e := comp_update p i Wp.expr _

theorem setExpr_val (p : WpPool) (i : Fin 32) (e : List Char) : (p.setExpr i e).val = p.val :=
  (comp_update p i Wp.val _).trans (Function.update_eq_self ..)

/-- An expression that has a value in some state. -/
def Evaluable (e : List Char) : Prop := ∃ g v, RV32Pipeline.expr g e = .ok v

theorem Evaluable.expr_eq {e : List Char} (he : Evaluable e) (hd : Watches.Defined g e) :
    RV32Pipeline.expr g e = .ok (valueOf g e) := by
  obtain ⟨g', v', h'⟩ := he
  obtain ⟨v, hv⟩ := (expr_ok_or_fault h' g).resolve_left hd
  rw [valueOf, hv]

/-- The loop of `check_wp` compares and stores the value of a node. -/
theorem checkLoop_cons (n : ℕ) (changed : Bool) {x : Fin 32} {v : Word}
    (hx : RV32Pipeline.expr g (p.expr x) = .ok v) :
    ∃ p₁, checkLoop g (n + 1) (some x) changed p =
        checkLoop g n (p₁.next x) (changed || v != p.val x) p₁ ∧
      p.SameButVal p₁ ∧ p₁.val = Function.update p.val x v := by
  rw [checkLoop, hx]
  by_cases hne : v = p.val x
  · refine ⟨p, ?_, ⟨rfl, rfl, rfl, rfl, rfl, rfl⟩, ?_⟩
    · simp only [hne, ne_eq, not_true_eq_false, if_false, bne_self_eq_false, Bool.or_false]
    · rw [hne, Function.update_eq_self]
  · have hsame := setVal_sameButVal p x v
    refine ⟨p.setVal x v, ?_, hsame, setVal_val p x _⟩
    simp only [ne_eq, hne, not_false_eq_true, if_true, hsame.next, bne_iff_ne.mpr hne, Bool.or_true]

/-- The loop of `check_wp` looks at all nodes of a list, if their values are defined. -/
theorem checkLoop_eq {xs : List (Fin 32)} {q : Option (Fin 32)} (h : Chain p.next q xs)
    (hnodup : xs.Nodup) {n : ℕ} (hn : xs.length ≤ n) (changed : Bool)
    (he : ∀ w ∈ xs, Evaluable (p.expr w)) :
    ((∀ w ∈ xs, Watches.Defined g (p.expr w)) →
      ∃ p', checkLoop g n q changed p =
          some (changed || xs.any fun w => valueOf g (p.expr w) != p.val w, p') ∧
        p.SameButVal p' ∧
        ∀ w, p'.val w = if w ∈ xs then valueOf g (p.expr w) else p.val w) ∧
      ((¬ ∀ w ∈ xs, Watches.Defined g (p.expr w)) → checkLoop g n q changed p = none) := by
  induction xs generalizing p q n changed with
  | nil =>
    have hq : q = none := h
    subst hq
    refine ⟨fun _ => ⟨p, ?_, ⟨rfl, rfl, rfl, rfl, rfl, rfl⟩, fun w => ?_⟩, fun hd => ?_⟩
    · rw [checkLoop, List.any_nil, Bool.or_false]
    · rw [if_neg (by simp)]
    · exact absurd (fun w hw => absurd hw (by simp)) hd
  | cons x xs ih =>
    obtain ⟨n, rfl⟩ : ∃ m, n = m + 1 := ⟨n - 1, by rw [List.length_cons] at hn; omega⟩
    obtain ⟨hx, hxs⟩ := List.nodup_cons.mp hnodup
    have hn' : xs.length ≤ n := Nat.le_of_succ_le_succ hn
    rw [h.1]
    by_cases hd : Watches.Defined g (p.expr x)
    · -- The first node is compared. The others have the values that they had.
      obtain ⟨p₁, hp₁, hsame, hval⟩ := checkLoop_cons n changed
        ((he x (List.mem_cons_self ..)).expr_eq hd)
      have hchain : Chain p₁.next (p₁.next x) xs := by
        rw [hsame.next]
        exact h.2
      have hev : ∀ w ∈ xs, Evaluable (p₁.expr w) := by
        rw [hsame.expr]
        exact fun w hw => he w (List.mem_cons_of_mem _ hw)
      have hvalxs : ∀ w ∈ xs, p₁.val w = p.val w := fun w hw => by
        rw [hval, Function.update_of_ne (fun he => hx (by rwa [← he]))]
      -- The rest of the list.
      obtain ⟨hgo, hstop⟩ := ih hchain hxs hn' (changed || valueOf g (p.expr x) != p.val x) hev
      rw [hsame.expr] at hgo hstop
      rw [hp₁]
      constructor
      · intro hall
        obtain ⟨p', hp', hs', hv'⟩ := hgo fun w hw => hall w (List.mem_cons_of_mem _ hw)
        refine ⟨p', ?_, hsame.trans hs', fun w => ?_⟩
        · have hany : (xs.any fun w => valueOf g (p.expr w) != p₁.val w) =
              xs.any fun w => valueOf g (p.expr w) != p.val w := by
            rw [Bool.eq_iff_iff, List.any_eq_true, List.any_eq_true]
            exact exists_congr fun w => and_congr_right fun hw => by rw [hvalxs w hw]
          rw [hp', List.any_cons, ← Bool.or_assoc, hany]
        · rw [hv']
          by_cases hw : w ∈ xs
          · rw [if_pos hw, if_pos (List.mem_cons_of_mem _ hw)]
          · rw [if_neg hw, hval]
            by_cases hwx : w = x
            · rw [hwx, Function.update_self, if_pos (List.mem_cons_self ..)]
            · rw [Function.update_of_ne hwx, if_neg (by simp [hw, hwx])]
      · intro hall
        refine hstop fun hrest => hall fun w hw => ?_
        rcases List.mem_cons.mp hw with rfl | hw
        · exact hd
        · exact hrest w hw
    · -- The first expression is undefined.
      have hfault : RV32Pipeline.expr g (p.expr x) = .error .fault := not_not.mp hd
      rw [checkLoop, hfault]
      exact ⟨fun hall => absurd (hall x (List.mem_cons_self ..)) hd, fun _ => rfl⟩

end WpPool

/-! ## One command -/

/-- The variables before the first command, in a state of the program. -/
def Sdb.init (g : Guest) : Sdb := ⟨WpPool.initWpPool, g⟩

/-- No watchpoint is set. -/
def Watches.init (g : Guest) : Watches := ⟨WpLists.init, fun _ => [], fun _ => 0#32, g⟩

namespace Sdb

open WpPool (Evaluable)

/-- The invariant: the pool shows the watchpoints that are set, and their expressions have
values. -/
structure Inv (x : Sdb) (s : Watches) : Prop where
  pool : x.pool.Represents s.lists
  expr : ∀ w ∈ s.lists.active, x.pool.expr w = s.expr w
  val : ∀ w ∈ s.lists.active, x.pool.val w = s.val w
  evaluable : ∀ w ∈ s.lists.active, Evaluable (s.expr w)
  guest : x.guest = s.guest

variable {x : Sdb} {s : Watches}

theorem Inv.shows (h : x.Inv s) : x.pool.Shows s := ⟨h.pool.active.chain, h.expr, h.val⟩

theorem inv_init (g : Guest) : (Sdb.init g).Inv (Watches.init g) where
  pool := WpPool.initWpPool_represents
  expr := fun _ hw => absurd hw (by simp [Watches.init, WpLists.init])
  val := fun _ hw => absurd hw (by simp [Watches.init, WpLists.init])
  evaluable := fun _ hw => absurd hw (by simp [Watches.init, WpLists.init])
  guest := rfl

/-- `check_wp` reports a change, and stores the current values. -/
theorem Inv.checkWp (h : x.Inv s) (g : Guest) :
    ((∀ w ∈ s.lists.active, Watches.Defined g (s.expr w)) →
      ∃ p', x.pool.checkWp g = some (s.changed g, p') ∧ (⟨p', g⟩ : Sdb).Inv (s.look g)) ∧
      ((¬ ∀ w ∈ s.lists.active, Watches.Defined g (s.expr w)) → x.pool.checkWp g = none) := by
  have hev : ∀ w ∈ s.lists.active, Evaluable (x.pool.expr w) := fun w hw => by
    rw [h.expr w hw]
    exact h.evaluable w hw
  have hdef : (∀ w ∈ s.lists.active, Watches.Defined g (x.pool.expr w)) ↔
      ∀ w ∈ s.lists.active, Watches.Defined g (s.expr w) :=
    forall₂_congr fun w hw => by rw [h.expr w hw]
  -- The list is no longer than the pool, so the loop comes to its end.
  obtain ⟨hgo, hstop⟩ := WpPool.checkLoop_eq h.pool.active.chain h.pool.active.nodup
    h.pool.length_le false hev (g := g)
  rw [hdef] at hgo hstop
  refine ⟨fun hall => ?_, hstop⟩
  obtain ⟨p', hp', hsame, hval⟩ := hgo hall
  refine ⟨p', ?_, ⟨h.pool.sameButVal hsame, fun w hw => ?_, fun w hw => ?_, h.evaluable, rfl⟩⟩
  · have hany : (s.lists.active.any fun w => valueOf g (x.pool.expr w) != x.pool.val w) =
        s.changed g := by
      rw [Bool.eq_iff_iff, Watches.changed, List.any_eq_true, List.any_eq_true]
      exact exists_congr fun w => and_congr_right fun hw => by rw [h.expr w hw, h.val w hw]
    rw [WpPool.checkWp, hp', hany, Bool.false_or]
  · show p'.expr w = s.expr w
    rw [hsame.expr]
    exact h.expr w hw
  · have hw' : w ∈ s.lists.active := hw
    show p'.val w = if w ∈ s.lists.active then valueOf g (s.expr w) else s.val w
    rw [hval, if_pos hw', if_pos hw', h.expr w hw]

/-- The loop of `execute` reports the first change. -/
theorem Inv.execute (guests : List Guest) (h : x.Inv s) :
    (Watches.ExecuteDefined guests s →
      ∃ x', Sdb.execute guests x = some ((Watches.execute guests s).1, x') ∧
        x'.Inv (Watches.execute guests s).2) ∧
      (¬ Watches.ExecuteDefined guests s → Sdb.execute guests x = none) := by
  induction guests generalizing x s with
  | nil => exact ⟨fun _ => ⟨x, rfl, h⟩, fun hn => absurd trivial hn⟩
  | cons g guests ih =>
    obtain ⟨hgo, hstop⟩ := h.checkWp g
    rw [Sdb.execute, Watches.execute, Watches.ExecuteDefined]
    by_cases hd : ∀ w ∈ s.lists.active, Watches.Defined g (s.expr w)
    · obtain ⟨p', hp', hinv⟩ := hgo hd
      rw [hp']
      rcases Bool.eq_false_or_eq_true (s.changed g) with hc | hc
      · rw [hc]
        exact ⟨fun _ => ⟨_, rfl, hinv⟩, fun hn => absurd ⟨hd, fun hf => absurd hf (by decide)⟩ hn⟩
      · -- No change, and the next instruction is executed.
        obtain ⟨hgo', hstop'⟩ := ih hinv
        rw [hc]
        constructor
        · rintro ⟨-, hrest⟩
          obtain ⟨x', hx', hinv'⟩ := hgo' (hrest rfl)
          refine ⟨x', ?_, hinv'⟩
          simp only [hx']
          rfl
        · intro hn
          simp only [hstop' fun hrest => hn ⟨hd, fun _ => hrest⟩]
          rfl
    · rw [hstop hd]
      exact ⟨fun hall => absurd hall.1 hd, fun _ => rfl⟩

/-- A node that is removed, and the numbers, values, and expressions are the same. -/
theorem Inv.of_sameData (h : x.Inv s) {p' : WpPool} {l : WpLists} (hr : p'.Represents l)
    (hs : x.pool.SameData p') (hl : ∀ w ∈ l.active, w ∈ s.lists.active) :
    (⟨p', x.guest⟩ : Sdb).Inv { s with lists := l } where
  pool := hr
  expr := fun w hw => by
    show p'.expr w = s.expr w
    rw [hs.2.2]
    exact h.expr w (hl w hw)
  val := fun w hw => by
    show p'.val w = s.val w
    rw [hs.2.1]
    exact h.val w (hl w hw)
  evaluable := fun w hw => h.evaluable w (hl w hw)
  guest := h.guest

/-- The commands `d`. -/
theorem Inv.cmdD (h : x.Inv s) (args : Option (List Char)) :
    (s.Safe (.d args) → ∃ p', x.pool.cmdD args = some p' ∧
        (⟨p', x.guest⟩ : Sdb).Inv (s.command (.d args)).2) ∧
      (¬ s.Safe (.d args) → x.pool.cmdD args = none) := by
  have hsame : ∃ p', some x.pool = some p' ∧ (⟨p', x.guest⟩ : Sdb).Inv s := ⟨_, rfl, h⟩
  rcases args with - | a
  · exact ⟨fun _ => hsame, fun hn => absurd trivial hn⟩
  · rcases ha : safeAtoi a with - | no
    · have hsafe : s.Safe (.d (some a)) := fun no hno => absurd (ha.symm.trans hno) (by simp)
      have hcmd : s.command (.d (some a)) = ([], s) := by
        simp only [Watches.command, ha]
      simp only [WpPool.cmdD, ha, hcmd]
      exact ⟨fun _ => hsame, fun hn => absurd hsafe hn⟩
    · have hsafe : s.Safe (.d (some a)) ↔ s.lists.Safe (.delete no) := by
        refine ⟨fun hs => hs no ha, fun hs no' hno' => ?_⟩
        rwa [← Option.some.inj (ha.symm.trans hno')]
      have hcmd : s.command (.d (some a)) = ([], { s with lists := s.lists.op (.delete no) }) := by
        simp only [Watches.command, ha]
      obtain ⟨hgo, hstop⟩ := h.pool.deleteWp no
      simp only [WpPool.cmdD, ha, hcmd, hsafe]
      refine ⟨fun hs => ?_, hstop⟩
      obtain ⟨p', hp', hr, hdata⟩ := hgo hs
      refine ⟨p', hp', h.of_sameData hr hdata fun w hw => ?_⟩
      -- The nodes that are left have been active before.
      rcases hf : s.lists.find no with - | v
      · simpa only [WpLists.op, hf] using hw
      · simp only [WpLists.op, hf, WpLists.remove] at hw
        exact List.mem_of_mem_erase hw

/-- The new node is the first free one. -/
theorem free_eq_cons (h : x.Inv s) (hf : s.lists.free ≠ []) :
    ∃ w free p', s.lists.free = w :: free ∧ w ∉ s.lists.active ∧ x.pool.newWp = some (w, p') ∧
      p'.Represents ⟨w :: s.lists.active, free⟩ ∧ x.pool.SameData p' := by
  obtain ⟨w, p', hp', hhead, hr, hdata⟩ := h.pool.newWp hf
  rcases hfree : s.lists.free with - | ⟨w', free⟩
  · exact absurd hfree hf
  · have hnew : s.lists.new = ⟨w' :: s.lists.active, free⟩ := by simp only [WpLists.new, hfree]
    rw [hnew] at hr
    have hw : w = w' := Option.some.inj (hhead.symm.trans hr.active.chain.1)
    subst hw
    exact ⟨w, free, p', rfl, (List.nodup_cons.mp hr.active.nodup).1, hp', hr, hdata⟩

/-- The command `w` with an expression that has a value sets a watchpoint. -/
theorem Inv.cmdW_ok (h : x.Inv s) {e : List Char} (hf : s.lists.free ≠ []) (hlen : e.length < 128)
    {v : Word} (hv : RV32Pipeline.expr s.guest e = .ok v) :
    ∃ p', x.pool.cmdW x.guest (some e) = some p' ∧ (⟨p', x.guest⟩ : Sdb).Inv (s.set e) := by
  obtain ⟨w, free, p', hfree, hw, hp', hr, hdata⟩ := free_eq_cons h hf
  have hne : ∀ u ∈ s.lists.active, u ≠ w := fun u hu he => hw (by rwa [← he])
  -- The watchpoint in the specification, and the node in the pool.
  have hset : s.set e =
      { s with
        lists := ⟨w :: s.lists.active, free⟩
        expr := Function.update s.expr w e
        val := Function.update s.val w v } := by
    simp only [Watches.set, hfree, hv, WpLists.new]
  have hcmd : x.pool.cmdW x.guest (some e) = some ((p'.setVal w v).setExpr w e) := by
    simp only [WpPool.cmdW, hp', h.guest, hv, if_neg (by omega : ¬ 128 ≤ e.length)]
  -- The lists are those that `new_wp` left. Only the new node has other data.
  have hr₂ := (hr.sameButVal (WpPool.setVal_sameButVal p' w v)).setExpr w e
  rw [hset]
  refine ⟨_, hcmd, ⟨hr₂, fun u hu => ?_, fun u hu => ?_, fun u hu => ?_, h.guest⟩⟩
  · show ((p'.setVal w v).setExpr w e).expr u = Function.update s.expr w e u
    rw [WpPool.setExpr_expr, (WpPool.setVal_sameButVal p' w v).expr, hdata.2.2]
    rcases List.mem_cons.mp hu with rfl | hu
    · rw [Function.update_self, Function.update_self]
    · rw [Function.update_of_ne (hne u hu), Function.update_of_ne (hne u hu)]
      exact h.expr u hu
  · show ((p'.setVal w v).setExpr w e).val u = Function.update s.val w v u
    rw [WpPool.setExpr_val, WpPool.setVal_val, hdata.2.1]
    rcases List.mem_cons.mp hu with rfl | hu
    · rw [Function.update_self, Function.update_self]
    · rw [Function.update_of_ne (hne u hu), Function.update_of_ne (hne u hu)]
      exact h.val u hu
  · show Evaluable (Function.update s.expr w e u)
    rcases List.mem_cons.mp hu with rfl | hu
    · rw [Function.update_self]
      exact ⟨s.guest, v, hv⟩
    · rw [Function.update_of_ne (hne u hu)]
      exact h.evaluable u hu

/-- The command `w` with another argument frees the new node again, which needs another free one. -/
theorem Inv.cmdW_error (h : x.Inv s) {e : List Char} (hf : s.lists.free ≠ []) {err : ExprError}
    (he : RV32Pipeline.expr s.guest e = .error err) (herr : err ≠ .fault) :
    (2 ≤ s.lists.free.length →
      ∃ p', x.pool.cmdW x.guest (some e) = some p' ∧ (⟨p', x.guest⟩ : Sdb).Inv s) ∧
      (¬ 2 ≤ s.lists.free.length → x.pool.cmdW x.guest (some e) = none) := by
  obtain ⟨w, free, p', hfree, hw, hp', hr, hdata⟩ := free_eq_cons h hf
  have hsame := WpPool.setVal_sameButVal p' w 0#32
  have hcmd : x.pool.cmdW x.guest (some e) = (p'.setVal w 0#32).freeWp w := by
    simp only [WpPool.cmdW, hp', h.guest, he]
  -- The new node is the first active one, so it can be removed if there is another free one.
  have hremovable : (⟨w :: s.lists.active, free⟩ : WpLists).Removable w ↔
      2 ≤ s.lists.free.length := by
    rw [hfree, List.length_cons]
    constructor
    · rintro ⟨hne, -⟩
      exact Nat.succ_le_succ (List.length_pos_of_ne_nil hne)
    · intro h2
      exact ⟨List.ne_nil_of_length_pos (Nat.le_of_succ_le_succ h2), Or.inl rfl⟩
  -- Then the lists are as before.
  have hback : (⟨w :: s.lists.active, free⟩ : WpLists).remove w = s.lists := by
    rw [WpLists.remove, List.erase_cons_head, ← hfree]
  obtain ⟨hgo, hstop⟩ := (hr.sameButVal hsame).freeWp (List.mem_cons_self ..)
  rw [hremovable] at hgo hstop
  rw [hback] at hgo
  rw [hcmd]
  refine ⟨fun h2 => ?_, hstop⟩
  obtain ⟨p₃, hp₃, hr₃, hdata₃⟩ := hgo h2
  refine ⟨p₃, hp₃, hr₃, fun u hu => ?_, fun u hu => ?_, h.evaluable, h.guest⟩
  · show p₃.expr u = s.expr u
    rw [hdata₃.2.2, hsame.expr, hdata.2.2]
    exact h.expr u hu
  · show p₃.val u = s.val u
    rw [hdata₃.2.1, WpPool.setVal_val, Function.update_of_ne (fun he => hw (by rwa [← he])),
      hdata.2.1]
    exact h.val u hu

/-- The command `w` with an argument. -/
theorem Inv.cmdW (h : x.Inv s) {e : List Char} (hf : s.lists.free ≠ []) (hlen : e.length < 128) :
    (s.Safe (.w (some e)) → ∃ p', x.pool.cmdW x.guest (some e) = some p' ∧
        (⟨p', x.guest⟩ : Sdb).Inv (s.set e)) ∧
      (¬ s.Safe (.w (some e)) → x.pool.cmdW x.guest (some e) = none) := by
  rcases hexpr : RV32Pipeline.expr s.guest e with err | v
  · -- An expression without a value sets nothing.
    have hset : s.set e = s := by
      unfold Watches.set
      rw [hexpr]
      rcases s.lists.free with - | ⟨w, free⟩ <;> rfl
    have hsafe : s.Safe (.w (some e)) ↔ err ≠ .fault ∧ 2 ≤ s.lists.free.length := by
      show Watches.Defined s.guest e ∧ _ ↔ _
      unfold Watches.Defined
      rw [hexpr]
      simp
    by_cases herr : err = .fault
    · refine ⟨fun hs => absurd herr (hsafe.mp hs).1, fun _ => ?_⟩
      obtain ⟨w, free, p', -, -, hp', -, -⟩ := free_eq_cons h hf
      simp only [WpPool.cmdW, hp', h.guest, hexpr, herr]
    · obtain ⟨hgo, hstop⟩ := h.cmdW_error hf hexpr herr
      rw [hset]
      exact ⟨fun hs => hgo (hsafe.mp hs).2, fun hn => hstop fun h2 => hn (hsafe.mpr ⟨herr, h2⟩)⟩
  · -- An expression with a value needs no second free node.
    have hsafe : s.Safe (.w (some e)) := by
      show Watches.Defined s.guest e ∧ _
      unfold Watches.Defined
      rw [hexpr]
      simp
    exact ⟨fun _ => h.cmdW_ok hf hlen hexpr, fun hn => absurd hsafe hn⟩

/-- Without an argument, `w` leaves a node that is not to be there. -/
theorem Inv.cmdW_none (h : x.Inv s) (hf : s.lists.free ≠ []) : ¬ x.Reports s [.w none] := by
  obtain ⟨w, free, p', -, hw, hp', hr, -⟩ := free_eq_cons h hf
  rintro ⟨x', hx', hshows⟩
  have hrun : x.run [.w none] = some ([], ⟨p', x.guest⟩) := by
    simp only [run, command, WpPool.cmdW, hp', Option.map_some, List.append_nil]
  rw [hrun] at hx'
  obtain ⟨-, rfl⟩ := Prod.ext_iff.mp (Option.some.inj hx')
  have hactive : w :: s.lists.active = s.lists.active :=
    hr.active.chain.unique hshows.active
  exact hw (by rw [← hactive]; exact List.mem_cons_self ..)

/-- One command. -/
theorem Inv.command (h : x.Inv s) {c : SdbCmd} (hl : s.Legal c) :
    (s.Safe c → ∃ x', x.command c = some ((s.command c).1, x') ∧ x'.Inv (s.command c).2) ∧
      (¬ s.Safe c → ¬ x.Reports s [c]) := by
  -- A command that does not come to an end reports nothing.
  have hstuck : x.command c = none → ¬ x.Reports s [c] := by
    rintro hn ⟨x', hx', -⟩
    rw [run, hn] at hx'
    exact absurd hx' (by simp)
  rcases c with (- | e) | args | guests
  · exact ⟨fun hs => absurd hs not_false, fun _ => h.cmdW_none hl.1⟩
  · obtain ⟨hgo, hstop⟩ := h.cmdW hl.1 (hl.2 e rfl)
    refine ⟨fun hs => ?_, fun hn => hstuck ?_⟩
    · obtain ⟨p', hp', hinv⟩ := hgo hs
      exact ⟨_, by rw [Sdb.command, hp']; rfl, hinv⟩
    · rw [Sdb.command, hstop hn]
      rfl
  · obtain ⟨hgo, hstop⟩ := h.cmdD args
    have hlog : (s.command (.d args)).1 = [] := by
      rcases args with - | a
      · rfl
      · rcases ha : safeAtoi a with - | no <;> simp only [Watches.command, ha]
    refine ⟨fun hs => ?_, fun hn => hstuck ?_⟩
    · obtain ⟨p', hp', hinv⟩ := hgo hs
      exact ⟨_, by rw [Sdb.command, hp', hlog]; rfl, hinv⟩
    · rw [Sdb.command, hstop hn]
      rfl
  · obtain ⟨hgo, hstop⟩ := h.execute guests
    exact ⟨hgo, fun hn => hstuck (hstop hn)⟩

/-- After a command that works, the others report as they do from there. -/
theorem reports_cons {c : SdbCmd} {x' : Sdb} (hc : x.command c = some ((s.command c).1, x'))
    (cmds : List SdbCmd) :
    x.Reports s (c :: cmds) ↔ x'.Reports (s.command c).2 cmds := by
  unfold Reports
  rw [run, hc, Watches.run]
  simp only
  refine exists_congr fun y => and_congr_left fun _ => ?_
  rcases x'.run cmds with - | ⟨log, z⟩
  · simp
  · simp [Prod.ext_iff]

/-- A sequence of commands reports all along if and only if every command works. -/
theorem Inv.reports_iff (cmds : List SdbCmd) (h : x.Inv s) (hl : s.Along Watches.Legal cmds) :
    (∀ n, x.Reports s (cmds.take n)) ↔ s.Along Watches.Safe cmds := by
  induction cmds generalizing x s with
  | nil =>
    refine ⟨fun _ => trivial, fun _ n => ?_⟩
    rw [List.take_nil]
    exact ⟨x, rfl, h.shows⟩
  | cons c cmds ih =>
    obtain ⟨hgo, hstop⟩ := h.command hl.1
    by_cases hs : s.Safe c
    · obtain ⟨x', hx', hinv⟩ := hgo hs
      -- The command works, and the others are as from the state behind it.
      have hrest := ih hinv hl.2
      constructor
      · intro hr
        refine ⟨hs, hrest.mp fun n => ?_⟩
        exact (reports_cons hx' _).mp (hr (n + 1))
      · rintro ⟨-, ha⟩ n
        rcases n with - | n
        · exact ⟨x, rfl, h.shows⟩
        · exact (reports_cons hx' _).mpr (hrest.mpr ha n)
    · constructor
      · intro hr
        exact absurd (hr 1) (hstop hs)
      · rintro ⟨hs', -⟩
        exact absurd hs' hs

/-! ## The law -/

/-- For every sequence of commands of a user who does his part, from any state of the program: all
along the commands come to an end, `check_wp` returns true if and only if the value of a watchpoint
has changed, and the nodes from `head` on are the watchpoints that are set and not deleted, with the
values they had last, if and only if every `w` has an argument, after one whose argument has no
value there is another free node, every `d` removes a node that can be removed, and every evaluation
is defined. -/
theorem watchpoints_report_iff (g : Guest) {cmds : List SdbCmd}
    (hl : (Watches.init g).Along Watches.Legal cmds) :
    (∀ n, (Sdb.init g).Reports (Watches.init g) (cmds.take n)) ↔
      (Watches.init g).Along Watches.Safe cmds :=
  (inv_init g).reports_iff cmds hl

/-- The expression `$ra`. -/
theorem expr_ra (g : Guest) : expr g "$ra".toList = .ok (g.gpr 1) := by
  have hs := Spaced.cons (t := regToken (some 1)) 0 (Spaced.nil 0)
  have hp : Prints (.reg (some 1)) 5 [regToken (some 1)] := Prints.reg (some 1) 5
  rw [show "$ra".toList = List.replicate 0 ' ' ++ (regToken (some 1)).str ++ List.replicate 0 ' '
    from rfl, hp.expr g hs (by decide) (by decide)]
  exact hp.eval rfl

/-- The pool after the watchpoint for `$ra` has been set. -/
theorem set_ra (g : Guest) :
    (Watches.init g).set "$ra".toList =
      { lists := ⟨[0], (List.finRange 32).tail⟩
        expr := Function.update (fun _ => []) 0 "$ra".toList
        val := Function.update (fun _ => 0#32) 0 (g.gpr 1)
        guest := g } := by
  have hfree : (Watches.init g).lists.free = 0 :: (List.finRange 32).tail := by
    show List.finRange 32 = 0 :: (List.finRange 32).tail
    decide
  have hra : expr (Watches.init g).guest "$ra".toList = .ok (g.gpr 1) := expr_ra g
  simp only [Watches.set, hfree, hra, WpLists.new]
  rfl

/-- The registers hold zeros. -/
def zeroGuest : Guest := ⟨fun _ => 0#32, Host.mbase, fun _ => 0#8⟩

/-- Whether the value of `$ra` has changed since the watchpoint for it was set. -/
theorem changed_ra (g g' : Guest) :
    ((Watches.init g).set "$ra".toList).changed g' = (g'.gpr 1 != g.gpr 1) := by
  rw [set_ra]
  simp only [Watches.changed, List.any_cons, List.any_nil, Function.update_self, valueOf, expr_ra,
    Bool.or_false]

/-- A watchpoint for `$ra` is set, and an instruction changes `$ra`: `check_wp` returns true. -/
theorem watchpoints_report_iff_ra :
    (Sdb.init zeroGuest).Reports (Watches.init zeroGuest)
        [.w (some "$ra".toList), .step [numbered]] ∧
      ((Watches.init zeroGuest).run [.w (some "$ra".toList), .step [numbered]]).1 = [true] := by
  have hchanged := changed_ra zeroGuest numbered
  rw [show (numbered.gpr 1 != zeroGuest.gpr 1) = true by decide] at hchanged
  have hlegal : (Watches.init zeroGuest).Along Watches.Legal
      [.w (some "$ra".toList), .step [numbered]] := by
    refine ⟨⟨?_, fun e he => ?_⟩, trivial, trivial⟩
    · show List.finRange 32 ≠ []
      decide
    · rw [← Option.some.inj he]
      decide
  have hdefined (g : Guest) : Watches.Defined g "$ra".toList := by
    rw [Watches.Defined, expr_ra]
    simp
  constructor
  · refine (watchpoints_report_iff zeroGuest hlegal).mpr ⟨⟨hdefined _, ?_⟩, ⟨?_, fun hno => ?_⟩,
      trivial⟩ 2
    · rintro ⟨err, he⟩
      have hra : expr (Watches.init zeroGuest).guest "$ra".toList = .ok (zeroGuest.gpr 1) :=
        expr_ra _
      rw [hra] at he
      exact absurd he (by simp)
    · intro w hw
      rw [Watches.command, set_ra] at hw ⊢
      rw [List.mem_singleton.mp hw]
      exact hdefined _
    · -- The execution stops here.
      rw [Watches.command, hchanged] at hno
      contradiction
  · simp only [Watches.run, Watches.command, Watches.execute, hchanged, if_true, List.nil_append,
      List.append_nil]

/-- The empty string is no expression. -/
theorem expr_nil (g : Guest) : expr g [] = .error .badexpr := by
  rw [expr, makeToken]
  show eval g [] = _
  rw [eval]

/-- The pool after `new_wp`. -/
def firstNode : WpPool :=
  (({ WpPool.initWpPool with head := some 0, free := some 1 } : WpPool).setNext 0 none).setPrev 0
    none

/-- Two nodes are allocated, one for `$ra` and one without an expression. -/
theorem allocate_two :
    ∃ p₁ p₂, WpPool.initWpPool.cmdW zeroGuest (some "$ra".toList) = some p₁ ∧
      p₁.cmdW zeroGuest none = some p₂ ∧ p₂.head = some 1 ∧ p₂.expr 1 = [] := by
  refine ⟨(firstNode.setVal 0 0#32).setExpr 0 "$ra".toList, _, ?_, rfl, rfl, rfl⟩
  have hnew : WpPool.initWpPool.newWp = some (0, firstNode) := rfl
  rw [WpPool.cmdW, hnew]
  simp only [expr_ra]
  rfl

/-- A watchpoint for `$ra` is set, then `w` is entered without an argument, and an instruction
changes `$ra`: `check_wp` comes to the node without an expression and returns false. -/
theorem bare_w_hides_change :
    (Watches.init zeroGuest).Along Watches.Legal
        [.w (some "$ra".toList), .w none, .step [numbered]] ∧
      ¬ ∀ n, (Sdb.init zeroGuest).Reports (Watches.init zeroGuest)
        ([.w (some "$ra".toList), .w none, .step [numbered]].take n) := by
  have hset : ((Watches.init zeroGuest).command (.w (some "$ra".toList))).2 = _ := set_ra zeroGuest
  refine ⟨⟨⟨?_, fun e he => ?_⟩, ⟨?_, fun e he => absurd he (by simp)⟩, trivial, trivial⟩, ?_⟩
  · show List.finRange 32 ≠ []
    decide
  · rw [← Option.some.inj he]
    decide
  · rw [hset]
    decide
  · intro h
    obtain ⟨x', hx', -⟩ := h 3
    obtain ⟨p₁, p₂, hp₁, hp₂, hhead, hexpr⟩ := allocate_two
    -- `check_wp` stops at the second node.
    have hcheck : p₂.checkWp numbered = some (false, p₂) := by
      rw [WpPool.checkWp, hhead, WpPool.checkLoop, hexpr, expr_nil]
    have hrun : (Sdb.init zeroGuest).run
        [.w (some "$ra".toList), .w none, .step [numbered]] = some ([false], ⟨p₂, numbered⟩) := by
      simp only [run, Sdb.command, init, hp₁, hp₂, Sdb.execute, hcheck, Option.map_some,
        List.nil_append, List.append_nil]
    -- The value of `$ra` has changed.
    have hspec : ((Watches.init zeroGuest).run
        [.w (some "$ra".toList), .w none, .step [numbered]]).1 = [true] := by
      have hchanged : ((Watches.init zeroGuest).set "$ra".toList).changed numbered = true :=
        (changed_ra zeroGuest numbered).trans (by decide)
      simp only [Watches.run, Watches.command, Watches.execute, hchanged, if_true,
        List.nil_append, List.append_nil]
    rw [List.take_of_length_le (by decide), hrun, hspec] at hx'
    have hlog : [false] = [true] := (Prod.ext_iff.mp (Option.some.inj hx')).1
    exact absurd hlog (by decide)

end Sdb

end RV32Pipeline
