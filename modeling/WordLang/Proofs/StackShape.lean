import WordLang.Proofs.StackDepth

/-
  This file says what is on the stack at each line of code.

  The shape of the stack at a line tells how many words have
  been pushed, and which of them, and which registers, hold
  the address of a variable. It is found by reading the
  lines from the first one on, without running them. A line
  has no shape after it when it is not safe: a push without
  room, a store to what is not known to be a variable, or a
  label with words still on the stack.

  The code of every statement can be read through, and ends
  with nothing on the stack.

  Key definitions include:
    * `WordLang.Tag`
    * `WordLang.Shape`
    * `WordLang.Shape.after?`
    * `WordLang.Shape.scan?`
    * `WordLang.Shape.Takes`
    * `WordLang.pushedBy`

  Key theorems include:
    * `WordLang.Shape.takes_of_after?`
    * `WordLang.Shape.length_stack_of_scan?`
    * `WordLang.Expr.scan?_code`
    * `WordLang.Stmt.scan?_code`
-/

namespace WordLang

------------------------------------------------------------
-- Shapes
------------------------------------------------------------

/-
  What is known of a word: nothing, or that it is the
  address of the variable at an offset.
-/
inductive Tag where
  | value
  | address (o : Offset)
deriving DecidableEq, Repr

/-
  What is known at a line: the words that were pushed, the
  last one first, and the registers that code computes in.
-/
structure Shape where
  stack : List Tag
  rax : Tag
  rdi : Tag
deriving DecidableEq, Repr

/-
  Instructions that write to no register but `rax`, and not
  to memory.
-/
def Instr.calculates : Instr → Bool
| movImm .rax _ => true
| load .rax _ => true
| add .rax _ => true
| sub .rax _ => true
| imul .rax _ => true
| cqo => true
| idiv _ => true
| cmp _ _ => true
| cmpZero _ => true
| setcc _ => true
| movzx => true
| _ => false

/- What these instructions are. -/
inductive Instr.Calculation : Instr → Prop where
  | movImm (value : Int64) : Calculation (.movImm .rax value)
  | load (base : Reg) : Calculation (.load .rax base)
  | add (src : Reg) : Calculation (.add .rax src)
  | sub (src : Reg) : Calculation (.sub .rax src)
  | imul (src : Reg) : Calculation (.imul .rax src)
  | cqo : Calculation .cqo
  | idiv (src : Reg) : Calculation (.idiv src)
  | cmp (lhs rhs : Reg) : Calculation (.cmp lhs rhs)
  | cmpZero (lhs : Reg) : Calculation (.cmpZero lhs)
  | setcc (cond : Cond) : Calculation (.setcc cond)
  | movzx : Calculation .movzx

theorem Instr.calculation_of_calculates
    {i : Instr}
    (hCalculates : i.calculates = true) :
    i.Calculation := by
  cases i with
  | movImm dst _ | load dst _ | add dst _ | sub dst _
  | imul dst _ =>
      cases dst with
      | rax => constructor
      | _ => cases hCalculates
  | cqo | idiv _ | cmp _ _ | cmpZero _ | setcc _ | movzx =>
      constructor
  | _ =>
      cases hCalculates

/- Lines that control reaches or leaves from elsewhere. -/
def Line.isJunction : Line → Bool
| .label _ => true
| .instr (.jmp _) => true
| .instr (.je _) => true
| _ => false

namespace Shape

/- The shape between two statements. -/
def rest : Shape := ⟨[], .value, .value⟩

section Scan

variable (t : Locals)
variable (words : Nat)

/-
  The shape after a line, where at most the given number of
  words may be pushed. Junctions are for the shape between
  two statements.
-/
def after?
    (s : Shape)
    (l : Line) : Option Shape :=
  if l.isJunction then
    if s = rest then some rest else none
  else
    match l with
    | .instr (.push .rax) =>
        if s.stack.length < words then
          some { s with stack := s.rax :: s.stack }
        else
          none
    | .instr (.pop .rax) =>
        match s.stack with
        | [] => none
        | tag :: stack => some ⟨stack, tag, s.rdi⟩
    | .instr (.pop .rdi) =>
        match s.stack with
        | [] => none
        | tag :: stack => some ⟨stack, s.rax, tag⟩
    | .instr (.mov .rdi .rax) =>
        some { s with rdi := s.rax }
    | .instr (.lea .rax o) =>
        some { s with rax := .address o }
    | .instr (.store .rdi .rax) =>
        match s.rdi with
        | .value => none
        | .address o =>
            if t.contains o then
              some { s with rdi := .value }
            else
              none
    | .instr i =>
        if i.calculates then
          some { s with rax := .value }
        else
          none
    | .label _ => none

/- The shape after some lines. -/
def scan? :
    Shape →
    List Line →
    Option Shape
| s, [] => some s
| s, l :: ls =>
    (s.after? t words l).bind (fun s' => scan? s' ls)

end Scan

variable {t : Locals}
variable {words : Nat}
variable {s s' : Shape}

/- One part after another. -/
theorem scan?_append
    (s : Shape)
    (ls ls' : List Line) :
    s.scan? t words (ls ++ ls') =
      (s.scan? t words ls).bind
        (fun s' => s'.scan? t words ls') := by
  induction ls generalizing s with
  | nil =>
      rfl
  | cons l ls ih =>
      rw [List.cons_append, scan?, scan?,
        Option.bind_assoc]
      congr 1
      funext s'
      exact ih s'

/- Parts that lead from one shape to another. -/
theorem scan?_append_of
    {ls ls' : List Line}
    {s₁ : Shape}
    (hFirst : s.scan? t words ls = some s₁)
    (hSecond : s₁.scan? t words ls' = some s') :
    s.scan? t words (ls ++ ls') = some s' := by
  rw [scan?_append, hFirst, Option.bind_some, hSecond]

/- Each line of some that were read is safe where it is. -/
theorem scan?_take
    {ls : List Line}
    {i : Nat}
    {l : Line}
    (hScan : s.scan? t words ls = some s')
    (hLine : ls[i]? = some l) :
    ∃ a b,
      s.scan? t words (ls.take i) = some a ∧
      a.after? t words l = some b ∧
      s.scan? t words (ls.take (i + 1)) = some b := by
  have hTake : ls.take (i + 1) = ls.take i ++ [l] := by
    rw [List.take_add_one, hLine]
    rfl
  have hSplit : ls = ls.take (i + 1) ++ ls.drop (i + 1) :=
    (List.take_append_drop _ _).symm
  rw [hSplit, scan?_append, Option.bind_eq_some_iff] at hScan
  rcases hScan with ⟨b, hBefore, -⟩
  have hAll := hBefore
  rw [hTake, scan?_append, Option.bind_eq_some_iff] at hAll
  rcases hAll with ⟨a, hFirst, hLast⟩
  rw [scan?, Option.bind_eq_some_iff] at hLast
  rcases hLast with ⟨_, hAfter, hEnd⟩
  cases hEnd
  exact ⟨a, b, hFirst, hAfter, hBefore⟩

/- A push where there is room. -/
theorem scan?_push
    (t : Locals)
    {stack : List Tag}
    (hRoom : stack.length < words)
    (rax rdi : Tag) :
    (Shape.mk stack rax rdi).scan? t words
        [.instr (.push .rax)] =
      some ⟨rax :: stack, rax, rdi⟩ := by
  simp [scan?, after?, Line.isJunction, hRoom]

/- A store to the variable whose address comes first. -/
theorem scan?_store
    (words : Nat)
    {o : Offset}
    (hContains : t.contains o = true)
    (stack : List Tag)
    (rax rdi : Tag) :
    (Shape.mk (.address o :: stack) rax rdi).scan? t words
        [.instr (.pop .rdi), .instr (.store .rdi .rax)] =
      some ⟨stack, rax, .value⟩ := by
  simp [scan?, after?, Line.isJunction, hContains]

/- Lines of instructions that calculate. -/
theorem scan?_calculates
    {is : List Instr}
    (hAll : is.all Instr.calculates = true)
    (stack : List Tag)
    (rdi : Tag) :
    (Shape.mk stack .value rdi).scan? t words
        (is.map .instr) =
      some ⟨stack, .value, rdi⟩ := by
  induction is with
  | nil =>
      rfl
  | cons i is ih =>
      rw [List.all_cons, Bool.and_eq_true] at hAll
      have hAfter :
          (Shape.mk stack .value rdi).after? t words
              (.instr i) =
            some ⟨stack, .value, rdi⟩ := by
        cases Instr.calculation_of_calculates hAll.1 <;> rfl
      rw [List.map_cons, scan?, hAfter, Option.bind_some]
      exact ih hAll.2

/- What a line that is safe does to a shape. -/
inductive Takes
    (t : Locals)
    (words : Nat) :
    Shape →
    Line →
    Shape →
    Prop where
  | junction
      {l : Line}
      (hJunction : l.isJunction = true) :
      Takes t words rest l rest
  | push
      {s : Shape}
      (hRoom : s.stack.length < words) :
      Takes t words s (.instr (.push .rax))
        { s with stack := s.rax :: s.stack }
  | popRax
      {stack : List Tag}
      {tag rax rdi : Tag} :
      Takes t words ⟨tag :: stack, rax, rdi⟩
        (.instr (.pop .rax)) ⟨stack, tag, rdi⟩
  | popRdi
      {stack : List Tag}
      {tag rax rdi : Tag} :
      Takes t words ⟨tag :: stack, rax, rdi⟩
        (.instr (.pop .rdi)) ⟨stack, rax, tag⟩
  | move
      {s : Shape} :
      Takes t words s (.instr (.mov .rdi .rax))
        { s with rdi := s.rax }
  | address
      {s : Shape}
      {o : Offset} :
      Takes t words s (.instr (.lea .rax o))
        { s with rax := .address o }
  | store
      {stack : List Tag}
      {rax : Tag}
      {o : Offset}
      (hContains : t.contains o = true) :
      Takes t words ⟨stack, rax, .address o⟩
        (.instr (.store .rdi .rax)) ⟨stack, rax, .value⟩
  | calculate
      {s : Shape}
      {i : Instr}
      (hCalculates : i.calculates = true) :
      Takes t words s (.instr i) { s with rax := .value }

/- A line does nothing else. -/
theorem takes_of_after?
    {l : Line}
    (hAfter : s.after? t words l = some s') :
    Takes t words s l s' := by
  rcases s with ⟨stack, rax, rdi⟩
  unfold after? at hAfter
  by_cases hJunction : l.isJunction = true
  · rw [if_pos hJunction] at hAfter
    split at hAfter
    · rename_i hRest
      cases hAfter
      rw [hRest]
      exact .junction hJunction
    · cases hAfter
  · rw [if_neg hJunction] at hAfter
    split at hAfter
    · split at hAfter
      · rename_i hRoom
        cases hAfter
        exact .push hRoom
      · cases hAfter
    · cases stack with
      | nil => cases hAfter
      | cons tag stack =>
          cases hAfter
          exact .popRax
    · cases stack with
      | nil => cases hAfter
      | cons tag stack =>
          cases hAfter
          exact .popRdi
    · cases hAfter
      exact .move
    · cases hAfter
      exact .address
    · cases rdi with
      | value => cases hAfter
      | address o =>
          simp only at hAfter
          split at hAfter
          · rename_i hContains
            cases hAfter
            exact .store hContains
          · cases hAfter
    · split at hAfter
      · rename_i hCalculates
        cases hAfter
        exact .calculate hCalculates
      · cases hAfter
    · cases hAfter

/- A label stands between two statements. -/
theorem eq_rest_of_label
    {l : Label}
    (hAfter : s.after? t words (.label l) = some s') :
    s = rest := by
  cases takes_of_after? hAfter with
  | junction _ => rfl

end Shape

------------------------------------------------------------
-- Counting Pushed Words
------------------------------------------------------------

/- Whether a line pushes a word. -/
def Line.isPush : Line → Bool
| .instr (.push _) => true
| _ => false

/- Whether a line takes a word off the stack. -/
def Line.isPop : Line → Bool
| .instr (.pop _) => true
| _ => false

/- The words that some lines push and do not take off. -/
def pushedBy
    (ls : List Line) : Nat :=
  ls.countP Line.isPush - ls.countP Line.isPop

namespace Shape

variable {t : Locals}
variable {words : Nat}
variable {s s' : Shape}

/- A line changes the number of words by pushes and pops. -/
theorem length_stack_after?
    {l : Line}
    (hAfter : s.after? t words l = some s') :
    s'.stack.length + [l].countP Line.isPop =
      s.stack.length + [l].countP Line.isPush := by
  cases takes_of_after? hAfter with
  | junction hJunction =>
      unfold Line.isJunction at hJunction
      split at hJunction <;> first | rfl | cases hJunction
  | push _ | popRax | popRdi | move | address | store _ =>
      rfl
  | calculate hCalculates =>
      cases Instr.calculation_of_calculates hCalculates <;>
        rfl

/- The shape after some lines has the words they push. -/
theorem length_stack_of_scan?
    {ls : List Line}
    (hScan : s.scan? t words ls = some s') :
    s'.stack.length + ls.countP Line.isPop =
      s.stack.length + ls.countP Line.isPush := by
  induction ls generalizing s with
  | nil =>
      cases hScan
      rfl
  | cons l ls ih =>
      rw [scan?, Option.bind_eq_some_iff] at hScan
      rcases hScan with ⟨s₁, hAfter, hRest⟩
      have hFirst := length_stack_after? hAfter
      have hLater := ih hRest
      rw [← List.singleton_append, List.countP_append,
        List.countP_append]
      omega

/- The same, for lines that start a routine. -/
theorem length_stack_eq_pushedBy
    {ls : List Line}
    (hScan : rest.scan? t words ls = some s) :
    s.stack.length = pushedBy ls := by
  have hCount := length_stack_of_scan? hScan
  have hEmpty : rest.stack.length = 0 := rfl
  unfold pushedBy
  omega

end Shape

------------------------------------------------------------
-- Expressions
------------------------------------------------------------

namespace Expr

variable {t : Locals}
variable {words : Nat}
variable {k k' : Nat}
variable {ls : List Line}

/- The code of an operation calculates. -/
theorem calculates_binOp
    (op : BinOp) :
    op.code.all Instr.calculates = true := by
  cases op <;> rfl

/-
  The code of an expression can be read through where there
  is room for its words. It leaves the stack as it was.
-/
theorem scan?_code
    {e : Expr}
    (hEmits : (e.code t).Emits k ls k')
    (stack : List Tag)
    (rax : Tag)
    (hRoom : stack.length + e.words ≤ words) :
    (Shape.mk stack rax .value).scan? t words ls =
      some ⟨stack, .value, .value⟩ := by
  induction e generalizing k k' ls stack rax with
  | int value span =>
      rcases Emitter.emits_instrs.mp hEmits with ⟨rfl, rfl⟩
      rfl
  | var offset span =>
      rw [code, Emitter.emits_append] at hEmits
      rcases hEmits with ⟨_, _, _, hAddress, hLoad, rfl⟩
      rcases emits_address.mp hAddress with
        ⟨_, _, _, _, rfl, rfl⟩
      rcases Emitter.emits_instrs.mp hLoad with ⟨rfl, rfl⟩
      rfl
  | binary op lhs rhs span ihLhs ihRhs =>
      simp only [code, Emitter.emits_append,
        Emitter.emits_instrs] at hEmits
      rcases hEmits with
        ⟨lhsLines, k₁, _, hLhs, ⟨_, _, _, ⟨rfl, rfl⟩,
          ⟨rhsLines, k₂, _, hRhs, ⟨rfl, rfl⟩, rfl⟩, rfl⟩,
          rfl⟩
      rw [Expr.words] at hRoom
      have hLess : stack.length < words := by
        omega
      have hPush := Shape.scan?_push t hLess .value .value
      have hLeft := ihLhs hLhs stack rax (by omega)
      have hRight :=
        ihRhs hRhs (.value :: stack) .value
          (by rw [List.length_cons]; omega)
      have hOp :
          (Shape.mk (.value :: stack) .value .value).scan? t
              words
              ((Instr.mov .rdi .rax :: .pop .rax ::
                op.code).map .instr) =
            some ⟨stack, .value, .value⟩ :=
        Shape.scan?_calculates (calculates_binOp op) stack
          .value
      exact Shape.scan?_append_of hLeft
        (Shape.scan?_append_of hPush
          (Shape.scan?_append_of hRight hOp))
  | assign target value span ihTarget ihValue =>
      simp only [code, Emitter.emits_append,
        Emitter.emits_instrs, emits_address] at hEmits
      rcases hEmits with
        ⟨_, _, _, ⟨offset, _, rfl, hContains, rfl, rfl⟩,
          ⟨_, _, _, ⟨rfl, rfl⟩, ⟨valueLines, k₁, _, hValue,
            ⟨rfl, rfl⟩, rfl⟩, rfl⟩, rfl⟩
      rw [Expr.words] at hRoom
      have hLess : stack.length < words := by
        omega
      have hPush :=
        Shape.scan?_push t hLess (.address offset) .value
      have hRight :=
        ihValue hValue (.address offset :: stack)
          (.address offset)
          (by rw [List.length_cons]; omega)
      have hStore :=
        Shape.scan?_store words hContains stack .value
          .value
      exact Shape.scan?_append_of rfl
        (Shape.scan?_append_of hPush
          (Shape.scan?_append_of hRight hStore))

/- In a statement, an expression starts with no words. -/
theorem scan?_code_rest
    {e : Expr}
    (hEmits : (e.code t).Emits k ls k')
    (hWords : e.words ≤ words) :
    Shape.rest.scan? t words ls = some .rest :=
  scan?_code hEmits [] .value
    (by rw [List.length_nil]; omega)

/- The same, for one that may be left out. -/
theorem scan?_codeOption
    {e : Option Expr}
    (hEmits : (codeOption t e).Emits k ls k')
    (hWords : wordsOption e ≤ words) :
    Shape.rest.scan? t words ls = some .rest := by
  cases e with
  | none =>
      rcases Emitter.emits_nothing.mp hEmits with ⟨rfl, rfl⟩
      rfl
  | some e =>
      exact scan?_code_rest hEmits hWords

/- The same, for a predicate. -/
theorem scan?_codeUnless
    {e : Expr}
    {target : Label}
    (hEmits : (e.codeUnless t target).Emits k ls k')
    (hWords : e.words ≤ words) :
    Shape.rest.scan? t words ls = some .rest := by
  rcases emits_codeUnless hEmits with
    ⟨ls', hCode, rfl, -, -⟩
  exact Shape.scan?_append_of (scan?_code_rest hCode hWords)
    rfl

/- The same, for a predicate that may be left out. -/
theorem scan?_codeUnlessOption
    {e : Option Expr}
    {target : Label}
    (hEmits :
      Emitter.Emits
        (match e with
        | none => .nothing
        | some e => e.codeUnless t target)
        k ls k')
    (hWords : wordsOption e ≤ words) :
    Shape.rest.scan? t words ls = some .rest := by
  cases e with
  | none =>
      rcases Emitter.emits_nothing.mp hEmits with ⟨rfl, rfl⟩
      rfl
  | some e =>
      exact scan?_codeUnless hEmits hWords

end Expr

------------------------------------------------------------
-- Statements
------------------------------------------------------------

namespace Stmt

variable {t : Locals}
variable {words : Nat}

mutual

/-
  The code of a statement can be read through, from nothing
  on the stack to nothing on the stack.
-/
theorem scan?_code
    {s : Stmt}
    {k k' : Nat}
    {ls : List Line}
    (hEmits : (s.code t).Emits k ls k')
    (hWords : s.words ≤ words) :
    Shape.rest.scan? t words ls = some .rest := by
  match s with
  | expr e _ =>
      exact Expr.scan?_code_rest hEmits hWords
  | ret e _ =>
      simp only [code, Emitter.emits_append,
        Emitter.emits_instrs] at hEmits
      rcases hEmits with ⟨_, _, _, hValue, ⟨rfl, rfl⟩, rfl⟩
      exact Shape.scan?_append_of
        (Expr.scan?_code_rest hValue hWords) rfl
  | ifThen predicate thenArm _ =>
      rcases emits_ifThen hEmits with
        ⟨_, _, _, hTest, hThen, rfl⟩
      rw [Stmt.words] at hWords
      exact Shape.scan?_append_of
        (Expr.scan?_codeUnless hTest (by omega))
        (Shape.scan?_append_of
          (scan?_code hThen (by omega)) rfl)
  | ifElse predicate thenArm elseArm _ =>
      rcases emits_ifElse hEmits with
        ⟨_, _, _, _, _, hTest, hThen, hElse, rfl⟩
      rw [Stmt.words] at hWords
      exact Shape.scan?_append_of
        (Expr.scan?_codeUnless hTest (by omega))
        (Shape.scan?_append_of
          (scan?_code hThen (by omega))
          (Shape.scan?_append_of rfl
            (Shape.scan?_append_of
              (scan?_code hElse (by omega)) rfl)))
  | whileLoop predicate body _ =>
      rcases emits_whileLoop hEmits with
        ⟨_, _, _, hTest, hBody, rfl⟩
      rw [Stmt.words] at hWords
      exact Shape.scan?_append_of rfl
        (Shape.scan?_append_of
          (Expr.scan?_codeUnless hTest (by omega))
          (Shape.scan?_append_of
            (scan?_code hBody (by omega)) rfl))
  | forLoop init predicate step body _ =>
      rcases emits_forLoop hEmits with
        ⟨_, _, _, _, _, _, _, hInit, hTest, hBody, hStep,
          rfl⟩
      rw [Stmt.words] at hWords
      exact Shape.scan?_append_of
        (Expr.scan?_codeOption hInit (by omega))
        (Shape.scan?_append_of rfl
          (Shape.scan?_append_of
            (Expr.scan?_codeUnlessOption hTest (by omega))
            (Shape.scan?_append_of
              (scan?_code hBody (by omega))
              (Shape.scan?_append_of
                (Expr.scan?_codeOption hStep (by omega))
                rfl))))
  | block body _ =>
      exact scan?_codeAll hEmits hWords

/- The same, for statements one after another. -/
theorem scan?_codeAll
    {ss : List Stmt}
    {k k' : Nat}
    {ls : List Line}
    (hEmits : (codeAll t ss).Emits k ls k')
    (hWords : wordsAll ss ≤ words) :
    Shape.rest.scan? t words ls = some .rest := by
  match ss with
  | [] =>
      rcases Emitter.emits_nothing.mp hEmits with ⟨rfl, rfl⟩
      rfl
  | s :: ss =>
      rw [codeAll, Emitter.emits_append] at hEmits
      rcases hEmits with ⟨_, _, _, hFirst, hRest, rfl⟩
      rw [wordsAll] at hWords
      exact Shape.scan?_append_of
        (scan?_code hFirst (by omega))
        (scan?_codeAll hRest (by omega))

end

end Stmt

end WordLang
