import WordLang.Proofs.LabelNumbers

/-
  This file finds the branches of a program in its code.

  The branching and looping statements of a program are
  numbered from outside in and from left to right. The code
  of each begins further down than that of the one before,
  and the labels with its number stand in this code only.

  Key definitions include:
    * `WordLang.Stmt.StandsAt`
    * `WordLang.Stmt.LaidOut`

  Key theorems include:
    * `WordLang.Stmt.exists_laidOut`
    * `WordLang.Program.exists_laidOut`
    * `WordLang.Program.jumps_lower`
    * `WordLang.Program.exists_branch_of_mem_labels`
-/

namespace WordLang

------------------------------------------------------------
-- Order of Numbers
------------------------------------------------------------

namespace Stmt

variable {locals : Locals}

/-
  The code of `s`, from `k` labels in use, begins after
  `start` of the lines, and the number it takes for itself
  is in no label outside of it.
-/
structure StandsAt
    (locals : Locals)
    (lines : List Line)
    (k : Nat)
    (s : Stmt)
    (start : Nat)
    (before own after : List Line)
    (k' : Nat) : Prop where
  control : s.isControl = true
  lines : lines = before ++ (own ++ after)
  start : before.length = start
  code : (s.code locals).Emits k own k'
  nonempty : own ≠ []
  fits : k' < 2 ^ 32
  apart :
    ∀ l, Mentions before l ∨ Mentions after l →
      l.id.toNat ≠ k + 1

/- Lines with other labels may stand around. -/
theorem StandsAt.embed
    {lines before own after pre post : List Line}
    {k k' start : Nat}
    {s : Stmt}
    (hStands :
      StandsAt locals lines k s start before own after k')
    (hApart :
      ∀ l, Mentions pre l ∨ Mentions post l →
        l.id.toNat ≠ k + 1) :
    StandsAt locals (pre ++ (lines ++ post)) k s
      (pre.length + start) (pre ++ before) own
      (after ++ post) k' := by
  constructor
  · exact hStands.control
  · simp [hStands.lines]
  · simp [hStands.start]
  · exact hStands.code
  · exact hStands.nonempty
  · exact hStands.fits
  · intro l hMentions
    rw [mentions_append, mentions_append] at hMentions
    rcases hMentions with
      (hPre | hBefore) | (hAfter | hPost)
    · exact hApart l (Or.inl hPre)
    · exact hStands.apart l (Or.inl hBefore)
    · exact hStands.apart l (Or.inr hAfter)
    · exact hApart l (Or.inr hPost)

/- A branch defines all labels with its number. -/
theorem StandsAt.mem_labelsOf_iff
    {lines before own after : List Line}
    {k k' start : Nat}
    {s : Stmt}
    {l : Label}
    (hStands :
      StandsAt locals lines k s start before own after k')
    (hNumber : l.id.toNat = k + 1) :
    l ∈ labelsOf lines ↔ l.role ∈ s.roles := by
  have hBefore : l ∉ labelsOf before := fun hMem =>
    hStands.apart l (Or.inl (Or.inl hMem)) hNumber
  have hAfter : l ∉ labelsOf after := fun hMem =>
    hStands.apart l (Or.inr (Or.inl hMem)) hNumber
  rw [hStands.lines, labelsOf_append, labelsOf_append,
    List.mem_append, List.mem_append, or_iff_right hBefore,
    or_iff_left hAfter]
  exact (mem_labelsOf_code_iff hStands.code hStands.fits
    hStands.control hNumber).1

/-
  The code of each of some statements is among the lines,
  with one number more for each, and later ones begin
  further down.
-/
inductive LaidOut
    (locals : Locals)
    (lines : List Line) :
    Nat → List Stmt → List Nat → Prop where
  | nil {k : Nat} : LaidOut locals lines k [] []
  | cons
      {k k' start : Nat}
      {s : Stmt} {ss : List Stmt} {starts : List Nat}
      {before own after : List Line}
      (hStands :
        StandsAt locals lines k s start before own after k')
      (hOrder : ∀ later ∈ starts, start < later)
      (hRest : LaidOut locals lines (k + 1) ss starts) :
      LaidOut locals lines k (s :: ss) (start :: starts)

namespace LaidOut

variable {lines : List Line}
variable {k : Nat}
variable {ss : List Stmt}
variable {starts : List Nat}

theorem length_eq
    (hLaid : LaidOut locals lines k ss starts) :
    starts.length = ss.length := by
  induction hLaid with
  | nil => rfl
  | cons hStands hOrder hRest ih =>
      rw [List.length_cons, List.length_cons, ih]

theorem pairwise
    (hLaid : LaidOut locals lines k ss starts) :
    starts.Pairwise (· < ·) := by
  induction hLaid with
  | nil => exact .nil
  | cons hStands hOrder hRest ih =>
      exact .cons hOrder ih

theorem standsAt
    {n start : Nat}
    {s : Stmt}
    (hLaid : LaidOut locals lines k ss starts)
    (hStmt : ss[n]? = some s)
    (hStart : starts[n]? = some start) :
    ∃ before own after k',
      StandsAt locals lines (k + n) s start before own after
        k' := by
  induction hLaid generalizing n with
  | nil => cases hStmt
  | @cons k k' first s' ss starts before own after
      hStands hOrder hRest ih =>
      cases n with
      | zero =>
          cases hStmt
          cases hStart
          exact ⟨before, own, after, k', hStands⟩
      | succ n =>
          have hLater := ih hStmt hStart
          rwa [Nat.add_right_comm, Nat.add_assoc] at hLater

theorem lt_length
    (hLaid : LaidOut locals lines k ss starts) :
    ∀ start ∈ starts, start < lines.length := by
  induction hLaid with
  | nil =>
      simp
  | cons hStands hOrder hRest ih =>
      rw [List.forall_mem_cons]
      refine ⟨?_, ih⟩
      have hOwn := List.length_pos_of_ne_nil hStands.nonempty
      rw [hStands.lines, ← hStands.start]
      simp only [List.length_append]
      omega

/- Lines with other labels may stand around. -/
theorem embed
    (pre post : List Line)
    (hLaid : LaidOut locals lines k ss starts)
    (hApart :
      ∀ l, Mentions pre l ∨ Mentions post l →
        ¬ Between k (k + ss.length) l) :
    LaidOut locals (pre ++ (lines ++ post)) k ss
      (starts.map (pre.length + ·)) := by
  induction hLaid with
  | nil => exact .nil
  | @cons k k' start s ss starts before own after
      hStands hOrder hRest ih =>
      have hNumber (l : Label)
          (hMentions : Mentions pre l ∨ Mentions post l) :
          l.id.toNat ≠ k + 1 := by
        intro hSame
        apply hApart l hMentions
        unfold Between
        rw [List.length_cons]
        omega
      refine .cons (hStands.embed hNumber) ?_ (ih ?_)
      · intro later hLater
        rcases List.mem_map.mp hLater with ⟨j, hMem, rfl⟩
        exact Nat.add_lt_add_left (hOrder j hMem) _
      · intro l hMentions hBetween
        apply hApart l hMentions
        unfold Between at hBetween ⊢
        rw [List.length_cons]
        omega

/- Statements after others, with code further down. -/
theorem append
    {ss' : List Stmt}
    {starts' : List Nat}
    (hLaid : LaidOut locals lines k ss starts)
    (hLater :
      LaidOut locals lines (k + ss.length) ss' starts')
    (hOrder :
      ∀ start ∈ starts, ∀ later ∈ starts', start < later) :
    LaidOut locals lines k (ss ++ ss')
      (starts ++ starts') := by
  induction hLaid with
  | nil => exact hLater
  | cons hStands hFirst hRest ih =>
      rw [List.forall_mem_cons] at hOrder
      refine .cons hStands ?_ (ih ?_ hOrder.2)
      · intro later hMem
        rcases List.mem_append.mp hMem with hMem | hMem
        · exact hFirst later hMem
        · exact hOrder.1 later hMem
      · rw [List.length_cons] at hLater
        rwa [Nat.add_right_comm, Nat.add_assoc]

end LaidOut

/- The branches of woven code, one arm after another. -/
theorem Woven.exists_laidOut
    {ss : List Stmt}
    {k k' : Nat}
    {glue ls : List Line}
    (hWoven : Woven locals ss k glue ls k')
    (hFits : k' < 2 ^ 32)
    (hGlue : ∀ l, Mentions glue l → ¬ Between k k' l)
    (hArms : ∀ arm ∈ ss, ∀ {k k' ls},
      (arm.code locals).Emits k ls k' → k' < 2 ^ 32 →
      ∃ starts,
        LaidOut locals ls k (branches [arm]) starts) :
    ∃ starts, LaidOut locals ls k (branches ss) starts := by
  induction hWoven with
  | done => exact ⟨[], .nil⟩
  | @arm s ss k k₁ k' own glue ls pre hOwn hRest ih =>
      have hOwnCount := (emits_code hOwn).1
      have hRestCount := hRest.eq_add_controlsAll
      rw [List.forall_mem_cons] at hArms
      simp only [mentions_append] at hGlue
      have hPre (l : Label) (hMentions : Mentions pre l) :=
        hGlue l (Or.inl hMentions)
      have hInner (l : Label) (hMentions : Mentions glue l) :
          ¬ Between k₁ k' l := fun hBetween =>
        hGlue l (Or.inr hMentions)
          (hBetween.mono (by omega) Nat.le.refl)
      rcases hArms.1 hOwn (by omega) with ⟨starts, hLaid⟩
      rcases ih hFits hInner hArms.2 with ⟨starts', hLater⟩
      -- The lines after the first part take later numbers.
      have hFirst := hLaid.embed pre ls (by
        rw [length_branches_singleton, ← hOwnCount]
        rintro l (hMentions | hMentions) hBetween
        · exact hPre l hMentions
            (hBetween.mono Nat.le.refl (by omega))
        · rcases hRest.mentions hFits
              (fun s _ => mentions_code s) hMentions with
            hMentions | rfl | hLate
          · exact hGlue l (Or.inr hMentions)
              (hBetween.mono Nat.le.refl (by omega))
          · exact not_between_atExit hBetween
          · exact hBetween.not_later Nat.le.refl hLate)
      -- The lines of the first part take earlier numbers.
      have hSecond := hLater.embed (pre ++ own) [] (by
        rw [length_branches, ← hRestCount]
        simp only [mentions_append]
        rintro l ((hMentions | hMentions) | hNone) hBetween
        · exact hPre l hMentions
            (hBetween.mono (by omega) Nat.le.refl)
        · rcases mentions_code s hOwn (by omega) l hMentions
            with rfl | hEarly
          · exact not_between_atExit hBetween
          · exact hEarly.not_later Nat.le.refl hBetween
        · exact not_mentions_nil l hNone)
      rw [List.append_nil, List.append_assoc] at hSecond
      rw [hOwnCount, ← length_branches_singleton] at hSecond
      rw [branches_cons]
      refine ⟨_, hFirst.append hSecond ?_⟩
      intro start hStart later hLate
      rcases List.mem_map.mp hStart with ⟨i, hi, rfl⟩
      rcases List.mem_map.mp hLate with ⟨j, hj, rfl⟩
      have hBound := hLaid.lt_length i hi
      rw [List.length_append]
      omega

/- The branches of a statement, outer ones first. -/
theorem exists_laidOut
    (s : Stmt)
    {k k' : Nat}
    {ls : List Line}
    (hEmits : (s.code locals).Emits k ls k')
    (hFits : k' < 2 ^ 32) :
    ∃ starts,
      LaidOut locals ls k (branches [s]) starts := by
  induction s using induct_arms generalizing k k' ls with
  | hStep s ih =>
      rcases exists_cutAt hEmits with
        ⟨head, glue, tail, rfl, hCut⟩
      have hCount := hCut.woven.eq_add_controlsAll
      -- The statement's own labels carry the number below.
      have hOwn (l : Label)
          (hMentions : Mentions (head ++ glue) l) :
          ¬ Between (k + s.taken) k' l := by
        intro hBetween
        rcases hCut.own_mentions hMentions with rfl | hOwn
        · exact not_between_atExit hBetween
        · have hTaken := taken_eq_one hOwn
          have hNumber := toNat_id_ownLabels (by omega) hOwn
          have hAbove := hBetween.1
          omega
      simp only [mentions_append] at hOwn
      rcases hCut.woven.exists_laidOut hFits
          (fun l hGlue => hOwn l (Or.inr hGlue)) ih with
        ⟨starts, hLaid⟩
      have hInner := hLaid.embed head [] (by
        intro l hMentions
        rw [length_branches, ← hCount]
        exact hOwn l (hMentions.imp_right
          (absurd · (not_mentions_nil l))))
      rw [List.append_nil] at hInner
      rw [branches_singleton]
      cases hControl : s.isControl with
      | false =>
          rw [taken, hControl] at hInner
          exact ⟨_, hInner⟩
      | true =>
          have hHead := List.length_pos_of_ne_nil
            (hCut.opens hControl)
          rw [taken, if_pos hControl] at hInner
          have hStands :
              StandsAt locals (head ++ tail) k s 0 []
                (head ++ tail) [] k' := by
            constructor
            · exact hControl
            · simp
            · rfl
            · exact hEmits
            · simp [hCut.opens hControl]
            · exact hFits
            · simp [not_mentions_nil]
          refine ⟨_, .cons hStands ?_ hInner⟩
          intro later hLater
          rcases List.mem_map.mp hLater with ⟨j, -, rfl⟩
          omega

end Stmt

------------------------------------------------------------
-- Programs
------------------------------------------------------------

namespace Program

variable {p : Program}

theorem jumpsOf_prologue
    (locals : Locals) :
    jumpsOf ((prologue locals).map .instr) = [] := by
  unfold prologue
  split <;> rfl

theorem labelsOf_epilogue :
    labelsOf epilogue = [.atExit] := rfl

theorem jumpsOf_epilogue :
    jumpsOf epilogue = [] := rfl

theorem not_mentions_prologue
    {locals : Locals}
    (l : Label) :
    ¬ Mentions ((prologue locals).map .instr) l := by
  simp [Mentions, jumpsOf_prologue]

theorem eq_atExit_of_mentions_epilogue
    {l : Label}
    (hMentions : Mentions epilogue l) :
    l = .atExit := by
  simpa [Mentions, labelsOf_epilogue, jumpsOf_epilogue]
    using hMentions

/- The code of a program jumps to labels in it. -/
theorem jumps_lower
    (hFault : p.lower.fault? = none) :
    jumpsOf p.lower.lines ⊆ labelsOf p.lower.lines := by
  rcases emits_lower hFault with ⟨body, hBody, hLines⟩
  intro l hJump
  simp only [hLines, jumpsOf_append, jumpsOf_prologue,
    jumpsOf_epilogue, labelsOf_append, labelsOf_instrs,
    labelsOf_epilogue, List.nil_append, List.append_nil,
    List.mem_append, List.mem_singleton] at hJump ⊢
  rcases (Stmt.woven_codeAll hBody).jumps
      (fun s _ => Stmt.jumps_code s) hJump with
    hNone | hExit | hLabel
  · cases hNone
  · exact Or.inr hExit
  · exact Or.inl hLabel

/-
  The branches of a program have their code in order, with
  the numbers from one on.
-/
theorem exists_laidOut
    (hFault : p.lower.fault? = none)
    (hCount : (Stmt.branches p.body).length < 2 ^ 32) :
    ∃ starts,
      Stmt.LaidOut p.locals p.lower.lines 0
        (Stmt.branches p.body) starts := by
  rcases emits_lower hFault with ⟨body, hBody, hLines⟩
  have hWoven := Stmt.woven_codeAll hBody
  have hFits : p.lower.labels < 2 ^ 32 := by
    rw [hWoven.eq_add_controlsAll, Nat.zero_add,
      ← Stmt.length_branches]
    exact hCount
  rcases hWoven.exists_laidOut hFits
      (fun l hNone => absurd hNone (not_mentions_nil l))
      (fun s _ => Stmt.exists_laidOut s) with
    ⟨starts, hLaid⟩
  rw [hLines]
  refine ⟨_, hLaid.embed _ _ ?_⟩
  rintro l (hPrologue | hEpilogue) hBetween
  · exact not_mentions_prologue l hPrologue
  · rw [eq_atExit_of_mentions_epilogue hEpilogue] at hBetween
    exact Stmt.not_between_atExit hBetween

/- Labels have the number of a branch, but for the exit. -/
theorem mentions_lower
    {l : Label}
    (hFault : p.lower.fault? = none)
    (hCount : (Stmt.branches p.body).length < 2 ^ 32)
    (hMentions : Mentions p.lower.lines l) :
    l = .atExit ∨
      Stmt.Between 0 (Stmt.branches p.body).length l := by
  rcases emits_lower hFault with ⟨body, hBody, hLines⟩
  have hWoven := Stmt.woven_codeAll hBody
  have hLabels := hWoven.eq_add_controlsAll
  rw [Nat.zero_add, ← Stmt.length_branches] at hLabels
  rw [hLines, mentions_append, mentions_append] at hMentions
  rcases hMentions with hPrologue | hBodyLine | hEpilogue
  · exact absurd hPrologue (not_mentions_prologue l)
  · rcases hWoven.mentions (by omega)
        (fun s _ => Stmt.mentions_code s) hBodyLine with
      hNone | hExit | hBetween
    · exact absurd hNone (not_mentions_nil l)
    · exact Or.inl hExit
    · rw [hLabels] at hBetween
      exact Or.inr hBetween
  · exact Or.inl (eq_atExit_of_mentions_epilogue hEpilogue)

/- A label of a program is the exit's or a branch's own. -/
theorem exists_branch_of_mem_labels
    {l : Label}
    (hFault : p.lower.fault? = none)
    (hCount : (Stmt.branches p.body).length < 2 ^ 32)
    (hLabel : l ∈ labelsOf p.lower.lines) :
    l = .atExit ∨
      ∃ n s,
        (Stmt.branches p.body)[n]? = some s ∧
        l.role ∈ s.roles ∧
        l.id.toNat = n + 1 := by
  rcases mentions_lower hFault hCount (Or.inl hLabel) with
    hExit | ⟨hAbove, hUpTo⟩
  · exact Or.inl hExit
  · right
    rcases exists_laidOut hFault hCount with ⟨starts, hLaid⟩
    have hNumber : l.id.toNat = l.id.toNat - 1 + 1 := by
      omega
    have hBranch :
        l.id.toNat - 1 <
          (Stmt.branches p.body).length := by
      omega
    have hStart : l.id.toNat - 1 < starts.length := by
      rwa [hLaid.length_eq]
    rcases hLaid.standsAt (List.getElem?_eq_getElem hBranch)
        (List.getElem?_eq_getElem hStart) with
      ⟨before, own, after, k', hStands⟩
    rw [Nat.zero_add] at hStands
    exact ⟨_, _, List.getElem?_eq_getElem hBranch,
      (hStands.mem_labelsOf_iff hNumber).mp hLabel, hNumber⟩

end Program

end WordLang
