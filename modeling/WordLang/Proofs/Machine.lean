import Mathlib.Algebra.Group.Int.Defs
import Mathlib.Algebra.Group.Nat.Defs
import WordLang.Assembly.Instr

/-
  This file runs machine code.

  A machine has the registers that routines use, the flags
  of the last comparison, a memory of bytes and a position
  in the code. Words are 64 bits and all arithmetic on them
  wraps. A word in memory is eight bytes, the least
  significant one first.

  A step ends in a running machine, in a machine that has
  reached `ret`, or in a divide error. It is stuck where
  the code gives no instruction, or where an instruction
  reads what was never set: a label that is not defined, or
  flags that the last arithmetic left open.

  Key definitions include:
    * `WordLang.Memory.read`
    * `WordLang.Memory.write`
    * `WordLang.Flags.ofSub`
    * `WordLang.Cond.holds`
    * `WordLang.Machine`
    * `WordLang.Machine.exec`
    * `WordLang.Machine.step`
    * `WordLang.Machine.run`

  What memory and flags hold is said by:
    * `WordLang.Memory.read_write`
    * `WordLang.Memory.write_apart`
    * `WordLang.Memory.read_congr`
    * `WordLang.Cond.holds_ofSub`
    * `WordLang.Machine.divide?_signWord`
-/

namespace WordLang

/- A machine word. -/
abbrev Word := BitVec 64

/- Bytes by their address. -/
abbrev Memory := Word → BitVec 8

------------------------------------------------------------
-- Memory
------------------------------------------------------------

namespace Memory

/- The word at an address. -/
def read
    (mem : Memory)
    (a : Word) : Word :=
  mem (a + 7) ++ mem (a + 6) ++ mem (a + 5) ++
    mem (a + 4) ++ mem (a + 3) ++ mem (a + 2) ++
    mem (a + 1) ++ mem a

/- The memory with another word at an address. -/
def write
    (mem : Memory)
    (a v : Word) : Memory :=
  fun x =>
    if (x - a).toNat < 8 then
      v.extractLsb' (8 * (x - a).toNat) 8
    else
      mem x

/- A byte of a word that was written. -/
theorem write_inside
    (mem : Memory)
    (a v i : Word)
    (hByte : i.toNat < 8) :
    mem.write a v (a + i) =
      v.extractLsb' (8 * i.toNat) 8 := by
  have hIndex : a + i - a = i := by
    bv_omega
  simp only [write, hIndex, hByte, if_true]

/- A word that was written is read back. -/
theorem read_write
    (mem : Memory)
    (a v : Word) :
    (mem.write a v).read a = v := by
  have hFirst :
      mem.write a v a = v.extractLsb' 0 8 := by
    simpa using write_inside mem a v 0 (by decide)
  simp only [read, hFirst,
    write_inside mem a v 1 (by decide),
    write_inside mem a v 2 (by decide),
    write_inside mem a v 3 (by decide),
    write_inside mem a v 4 (by decide),
    write_inside mem a v 5 (by decide),
    write_inside mem a v 6 (by decide),
    write_inside mem a v 7 (by decide)]
  apply BitVec.eq_of_getLsbD_eq
  intro i hBit
  simp only [BitVec.getLsbD_append,
    BitVec.getLsbD_extractLsb']
  simp
  grind

/- Writing a word leaves the bytes apart from it alone. -/
theorem write_apart
    (mem : Memory)
    (v : Word)
    {a x : Word}
    (hFits : a.toNat + 8 ≤ 2 ^ 64)
    (hApart :
      x.toNat < a.toNat ∨ a.toNat + 8 ≤ x.toNat) :
    mem.write a v x = mem x := by
  have hOutside : ¬ (x - a).toNat < 8 := by
    bv_omega
  simp only [write, hOutside, if_false]

/- A word depends on its own bytes only. -/
theorem read_congr
    {mem mem' : Memory}
    {a : Word}
    (hFits : a.toNat + 8 ≤ 2 ^ 64)
    (hBytes :
      ∀ x : Word,
        a.toNat ≤ x.toNat →
        x.toNat < a.toNat + 8 →
        mem x = mem' x) :
    mem.read a = mem'.read a := by
  have hByte
      (i : Word)
      (hIndex : i.toNat < 8) :
      mem (a + i) = mem' (a + i) := by
    apply hBytes
    · bv_omega
    · bv_omega
  simp only [read, hByte 1 (by decide),
    hByte 2 (by decide), hByte 3 (by decide),
    hByte 4 (by decide), hByte 5 (by decide),
    hByte 6 (by decide), hByte 7 (by decide),
    hBytes a (by omega) (by omega)]

end Memory

------------------------------------------------------------
-- Flags
------------------------------------------------------------

/- What arithmetic tells about its result. -/
structure Flags where
  zero : Bool
  sign : Bool
  overflow : Bool
deriving DecidableEq, Repr

namespace Flags

/- The flags of a sum. -/
def ofAdd
    (a b : Word) : Flags :=
  ⟨a + b = 0, (a + b).msb, BitVec.saddOverflow a b⟩

/- The flags of a difference, which comparing sets too. -/
def ofSub
    (a b : Word) : Flags :=
  ⟨a - b = 0, (a - b).msb, BitVec.ssubOverflow a b⟩

end Flags

namespace Cond

/- Whether the flags of a comparison have an outcome. -/
def holds
    (f : Flags) :
    Cond → Bool
| equal => f.zero
| notEqual => !f.zero
| less => f.sign != f.overflow
| lessEqual => f.zero || f.sign != f.overflow

/- Whether two words compare so, as signed integers. -/
def compares
    (a b : Int) :
    Cond → Bool
| equal => a = b
| notEqual => a ≠ b
| less => a < b
| lessEqual => a ≤ b

end Cond

namespace Flags

/- The zero flag of a difference tells equality. -/
theorem zero_ofSub
    (a b : Word) :
    (ofSub a b).zero = decide (a.toInt = b.toInt) := by
  have hEqual : a - b = 0 ↔ a.toInt = b.toInt := by
    rw [BitVec.toInt_inj]
    constructor
    · intro hZero
      bv_omega
    · intro hSame
      bv_omega
  simp only [ofSub, hEqual]

/- Sign and overflow of a difference tell the order. -/
theorem sign_ofSub
    (a b : Word) :
    ((ofSub a b).sign != (ofSub a b).overflow) =
      decide (a.toInt < b.toInt) := by
  have hA := BitVec.le_toInt a
  have hA' := BitVec.toInt_lt (x := a)
  have hB := BitVec.le_toInt b
  have hB' := BitVec.toInt_lt (x := b)
  simp only [ofSub, BitVec.msb_eq_toInt,
    BitVec.ssubOverflow, BitVec.toInt_sub]
  grind [Int.bmod]

end Flags

namespace Cond

/- Comparing two words sets the flags to tell their order. -/
theorem holds_ofSub
    (a b : Word)
    (cond : Cond) :
    cond.holds (Flags.ofSub a b) =
      cond.compares a.toInt b.toInt := by
  cases cond with
  | equal =>
      exact Flags.zero_ofSub a b
  | notEqual =>
      simp [holds, compares, Flags.zero_ofSub]
  | less =>
      exact Flags.sign_ofSub a b
  | lessEqual =>
      simp only [holds, compares, Flags.zero_ofSub,
        Flags.sign_ofSub]
      grind

end Cond

------------------------------------------------------------
-- Machines
------------------------------------------------------------

/-
  The state of a machine. Flags that the last arithmetic
  left open are missing.
-/
structure Machine where
  rax : Word
  rdi : Word
  rdx : Word
  rsp : Word
  rbp : Word
  flags : Option Flags
  memory : Memory
  pc : Nat

/- What a machine has come to. -/
inductive Status where
  | running (m : Machine)
  | returned (m : Machine)
  | divideError
  | stuck

namespace Machine

/- The word in a register. -/
def get
    (m : Machine) :
    Reg → Word
| .rax => m.rax
| .rdi => m.rdi
| .rsp => m.rsp
| .rbp => m.rbp

/- The machine with another word in a register. -/
def set
    (m : Machine)
    (r : Reg)
    (v : Word) : Machine :=
  match r with
  | .rax => { m with rax := v }
  | .rdi => { m with rdi := v }
  | .rsp => { m with rsp := v }
  | .rbp => { m with rbp := v }

/- The machine at the next line. -/
def next
    (m : Machine) : Machine :=
  { m with pc := m.pc + 1 }

/-
  Quotient and remainder of a double word and a word, as
  signed integers and rounded to zero. There are none when
  the divisor is zero or the quotient is not a word.
-/
def divide?
    (high low divisor : Word) : Option (Word × Word) :=
  let n := (high ++ low).toInt
  let q := n.tdiv divisor.toInt
  if divisor = 0 ∨ q < -2 ^ 63 ∨ 2 ^ 63 ≤ q then
    none
  else
    some
      (BitVec.ofInt 64 q,
       BitVec.ofInt 64 (n.tmod divisor.toInt))

/- The high word that extends a word by its sign. -/
def signWord
    (a : Word) : Word :=
  if a.msb then BitVec.allOnes 64 else 0

/- Go on at a label. -/
def jump
    (code : List Line)
    (m : Machine)
    (target : Label) : Status :=
  match code.idxOf? (.label target) with
  | some i => .running { m with pc := i }
  | none => .stuck

/- Carry out an instruction. -/
def exec
    (code : List Line)
    (m : Machine) :
    Instr → Status
| .push src =>
    .running { m.next with
      rsp := m.rsp - 8
      memory := m.memory.write (m.rsp - 8) (m.get src) }
| .pop dst =>
    .running
      ({ m.next with rsp := m.rsp + 8 }.set dst
        (m.memory.read m.rsp))
| .mov dst src => .running (m.next.set dst (m.get src))
| .movImm dst value =>
    .running (m.next.set dst value.toBitVec)
| .load dst base =>
    .running
      (m.next.set dst (m.memory.read (m.get base)))
| .store base src =>
    .running { m.next with
      memory := m.memory.write (m.get base) (m.get src) }
| .lea dst offset =>
    .running
      (m.next.set dst
        (m.rbp - BitVec.ofNat 64 offset.bytes.toNat))
| .add dst src =>
    .running
      ({ m.next with
        flags := some (.ofAdd (m.get dst) (m.get src))
      }.set dst (m.get dst + m.get src))
| .sub dst src =>
    .running
      ({ m.next with
        flags := some (.ofSub (m.get dst) (m.get src))
      }.set dst (m.get dst - m.get src))
| .imul dst src =>
    .running
      ({ m.next with flags := none }.set dst
        (m.get dst * m.get src))
| .subImm dst bytes =>
    -- What is encoded is below 2^31, so it has no sign.
    let v := BitVec.ofNat 64 bytes.toNat
    .running
      ({ m.next with
        flags := some (.ofSub (m.get dst) v)
      }.set dst (m.get dst - v))
| .cqo => .running { m.next with rdx := signWord m.rax }
| .idiv src =>
    match divide? m.rdx m.rax (m.get src) with
    | some (q, r) =>
        .running
          { m.next with rax := q, rdx := r, flags := none }
    | none => .divideError
| .cmp lhs rhs =>
    .running { m.next with
      flags := some (.ofSub (m.get lhs) (m.get rhs)) }
| .cmpZero lhs =>
    .running { m.next with
      flags := some (.ofSub (m.get lhs) 0) }
| .setcc cond =>
    match m.flags with
    | some f =>
        .running { m.next with
          rax := m.rax.extractLsb' 8 56 ++
            (if cond.holds f then 1#8 else 0#8) }
    | none => .stuck
| .movzx =>
    .running
      { m.next with rax := (m.rax.setWidth 8).setWidth 64 }
| .jmp target => m.jump code target
| .je target =>
    match m.flags with
    | some f =>
        if f.zero then m.jump code target
        else .running m.next
    | none => .stuck
| .ret => .returned m

/- Carry out the line at the position of the machine. -/
def step
    (code : List Line)
    (m : Machine) : Status :=
  match code[m.pc]? with
  | none => .stuck
  | some (.label _) => .running m.next
  | some (.instr i) => m.exec code i

/- Take a number of steps, unless the machine stops. -/
def run
    (code : List Line) :
    Nat →
    Machine →
    Status
| 0, m => .running m
| n + 1, m =>
    match m.step code with
    | .running m => run code n m
    | status => status

------------------------------------------------------------
-- Division of a Word
------------------------------------------------------------

/- A word extended by its sign has the same value. -/
theorem toInt_signWord_append
    (a : Word) :
    (signWord a ++ a).toInt = a.toInt := by
  have hExtend : signWord a ++ a = a.signExtend 128 := by
    rw [BitVec.signExtend_eq_append_of_le (by decide)]
    cases hSign : a.msb
    · simp [signWord, hSign]
    · simp [signWord, hSign]
  rw [hExtend]
  exact BitVec.toInt_signExtend_of_le (by decide)

/- The one quotient of two words that is not a word. -/
theorem tdiv_out_of_range_iff
    (a b : Word)
    (hDivisor : b ≠ 0) :
    (a.toInt.tdiv b.toInt < -2 ^ 63 ∨
        2 ^ 63 ≤ a.toInt.tdiv b.toInt) ↔
      a = BitVec.intMin 64 ∧ b = -1 := by
  have hMin : (BitVec.intMin 64).toInt = -2 ^ 63 := by
    decide
  have hMinusOne : (-1 : Word).toInt = -1 := by
    decide
  have hA := BitVec.le_toInt a
  have hA' := BitVec.toInt_lt (x := a)
  have hB : b.toInt ≠ 0 := by
    simpa [← BitVec.toInt_inj] using hDivisor
  rw [← BitVec.toInt_inj, ← BitVec.toInt_inj (x := b),
    hMin, hMinusOne]
  constructor
  · intro hRange
    have hAbs :
        (a.toInt.tdiv b.toInt).natAbs ≤ a.toInt.natAbs :=
      Int.natAbs_tdiv_le_natAbs a.toInt b.toInt
    have hLow : a.toInt = -2 ^ 63 := by
      omega
    have hSmall : ¬ 2 ≤ b.toInt.natAbs := by
      intro hTwo
      have hHalf :
          a.toInt.natAbs / b.toInt.natAbs ≤
            a.toInt.natAbs / 2 :=
        Nat.div_le_div_left hTwo (by decide)
      have hQuotient :
          (a.toInt.tdiv b.toInt).natAbs =
            a.toInt.natAbs / b.toInt.natAbs :=
        Int.natAbs_tdiv a.toInt b.toInt
      omega
    have hOne : b.toInt.natAbs = 1 := by
      omega
    refine ⟨hLow, ?_⟩
    rcases Int.natAbs_eq b.toInt with hPos | hNeg
    · rw [hOne] at hPos
      rw [hPos, hLow] at hRange
      simp at hRange
    · rw [hNeg, hOne]
      rfl
  · rintro ⟨hLow, hNeg⟩
    rw [hLow, hNeg]
    decide

/-
  Dividing a word that was extended by its sign fails for
  a zero divisor and for the one quotient that is too big.
-/
theorem divide?_signWord
    (a b : Word) :
    divide? (signWord a) a b =
      if b = 0 ∨ (a = BitVec.intMin 64 ∧ b = -1) then
        none
      else
        some (a.sdiv b, a.srem b) := by
  have hQuotient :
      BitVec.ofInt 64 (a.toInt.tdiv b.toInt) =
        a.sdiv b := by
    apply BitVec.eq_of_toInt_eq
    rw [BitVec.toInt_ofInt, BitVec.toInt_sdiv]
  have hRemainder :
      BitVec.ofInt 64 (a.toInt.tmod b.toInt) =
        a.srem b := by
    apply BitVec.eq_of_toInt_eq
    rw [← BitVec.toInt_srem, BitVec.ofInt_toInt]
  by_cases hZero : b = 0
  · simp only [divide?, hZero, true_or, if_true]
  · simp only [divide?, toInt_signWord_append, hQuotient,
      hRemainder, hZero, false_or,
      tdiv_out_of_range_iff a b hZero]

/- The quotient and the remainder of a division. -/
theorem exec_idiv
    {code : List Line}
    {m : Machine}
    {src : Reg}
    {q r : Word}
    (hDivide :
      divide? m.rdx m.rax (m.get src) = some (q, r)) :
    m.exec code (.idiv src) =
      .running
        { m.next with rax := q, rdx := r, flags := none } :=
    by
  rw [exec, hDivide]

/- A division that has no quotient. -/
theorem exec_idiv_error
    {code : List Line}
    {m : Machine}
    {src : Reg}
    (hDivide : divide? m.rdx m.rax (m.get src) = none) :
    m.exec code (.idiv src) = .divideError := by
  rw [exec, hDivide]

end Machine

end WordLang
