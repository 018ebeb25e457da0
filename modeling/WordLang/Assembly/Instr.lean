import WordLang.Locals

/-
  This file defines the machine code that programs become.

  It is the part of the x86-64 instruction set that one
  routine of word arithmetic needs. A routine is a list of
  lines, each an instruction or the definition of a label.

  Key definitions include:
    * `WordLang.Reg`
    * `WordLang.Cond`
    * `WordLang.Label`
    * `WordLang.Instr`
    * `WordLang.Line`
-/

namespace WordLang

------------------------------------------------------------
-- Operands
------------------------------------------------------------

/- The registers in use. -/
inductive Reg where
  | rax
  | rdi
  | rsp
  | rbp
deriving DecidableEq, Repr

/- The outcomes of a signed comparison that are tested. -/
inductive Cond where
  | equal
  | notEqual
  | less
  | lessEqual
deriving DecidableEq, Repr

/- What a label marks. -/
inductive Label.Role where
  | begin
  | orElse
  | finish
  | exit
deriving DecidableEq, Repr

/-
  A label. The labels of one branching or looping statement
  share its number, a 32-bit word.
-/
structure Label where
  role : Label.Role
  id : UInt32
deriving DecidableEq, Repr

namespace Label

/-
  The label of the single exit of a routine. Its number is
  never given to a statement.
-/
def atExit : Label := ⟨.exit, 0⟩

end Label

------------------------------------------------------------
-- Instructions
------------------------------------------------------------

/-
  An instruction. `load` and `store` address memory by a
  register, `lea` forms an address below the frame base,
  and `setcc` and `movzx` work on the low byte of `rax`.
-/
inductive Instr where
  | push (src : Reg)
  | pop (dst : Reg)
  | mov (dst src : Reg)
  | movImm (dst : Reg) (value : Int64)
  | load (dst base : Reg)
  | store (base src : Reg)
  | lea (dst : Reg) (offset : Offset)
  | add (dst src : Reg)
  | sub (dst src : Reg)
  | imul (dst src : Reg)
  | subImm (dst : Reg) (bytes : UInt32)
  | cqo
  | idiv (src : Reg)
  | cmp (lhs rhs : Reg)
  | cmpZero (lhs : Reg)
  | setcc (cond : Cond)
  | movzx
  | jmp (target : Label)
  | je (target : Label)
  | ret
deriving DecidableEq, Repr

/- A line of a routine. -/
inductive Line where
  | instr (i : Instr)
  | label (l : Label)
deriving DecidableEq, Repr

end WordLang
