import WordLang.Proofs.CompilerSafety
import WordLang.Proofs.Renaming

/-
  This file proves that layout and names leave no trace in
  the output.

  The code of a program does not depend on the regions of
  its parts, and of its table only the number of variables
  matters. So two sources whose tokens have the same kinds
  and the same numbers, and whose names correspond to each
  other, have the same assembly text or the same error.

  Key definitions include:
    * `WordLang.Emitter.Alike`
    * `WordLang.Token.Alike`
    * `WordLang.TokenStream.Alike`

  Key theorems include:
    * `WordLang.Program.lower_bare`
    * `WordLang.Program.parse_alike`
    * `WordLang.compile_ignores_layout_and_names`
-/

namespace WordLang

------------------------------------------------------------
-- Emission
------------------------------------------------------------

/- An emission without the region of its fault. -/
def Emission.bare
    (a : Emission) : Emission :=
  ⟨a.lines, a.labels,
    a.fault?.map fun fault => ⟨fault.value, .nowhere⟩⟩

namespace Emitter

/- Emitters that differ only in the region of a fault. -/
def Alike
    (a b : Emitter) : Prop :=
  ∀ k, (a k).bare = (b k).bare

theorem Alike.refl
    (a : Emitter) :
    a.Alike a :=
  fun _ => rfl

/- A fault is one in both. -/
theorem Alike.isNone_eq
    {a b : Emitter}
    (hAlike : a.Alike b)
    (k : Nat) :
    (a k).fault?.isNone = (b k).fault?.isNone := by
  have hFault := congrArg Emission.fault? (hAlike k)
  have hNone := congrArg Option.isNone hFault
  simpa [Emission.bare] using hNone

theorem Alike.append
    {a a' b b' : Emitter}
    (hFirst : a.Alike a')
    (hSecond : b.Alike b') :
    (a ++ b).Alike (a' ++ b') := by
  intro k
  have hSame := hFirst k
  have hLines := congrArg Emission.lines hSame
  have hLabels := congrArg Emission.labels hSame
  have hNone := hFirst.isNone_eq k
  simp only [Emission.bare] at hLines hLabels
  show (Emitter.append a b k).bare =
    (Emitter.append a' b' k).bare
  unfold Emitter.append
  cases hFault : (a k).fault? with
  | some fault =>
      cases hFault' : (a' k).fault? with
      | some fault' =>
          simp only [hFault, hFault']
          exact hSame
      | none =>
          simp [hFault, hFault'] at hNone
  | none =>
      cases hFault' : (a' k).fault? with
      | some fault' =>
          simp [hFault, hFault'] at hNone
      | none =>
          have hRest := hSecond (a k).labels
          simp only [Emission.bare, Emission.mk.injEq]
            at hRest
          simp only [hFault, hFault', Emission.bare,
            Emission.mk.injEq, hLines, ← hLabels]
          exact ⟨by rw [hRest.1], hRest.2.1, hRest.2.2⟩

theorem Alike.withLabel
    {a a' : UInt32 → Emitter}
    (hAlike : ∀ id, (a id).Alike (a' id)) :
    (withLabel a).Alike (withLabel a') :=
  fun k => hAlike (UInt32.ofNat (k + 1)) (k + 1)

end Emitter

------------------------------------------------------------
-- Code
------------------------------------------------------------

namespace Locals

variable (f : String → String)
variable (t : Locals)

/- A renamed table has its variables at the same offsets. -/
@[simp] theorem contains_rename
    (o : Offset) :
    (t.rename f).contains o = t.contains o := by
  unfold contains nameOf? rename
  split <;> simp

@[simp] theorem size_rename :
    (t.rename f).size = t.size := by
  simp [size, rename]

end Locals

variable (f : String → String)
variable (locals : Locals)

namespace Expr

theorem address_alike
    (e : Expr) :
    (e.address locals).Alike
      (e.bare.address (locals.rename f)) := by
  intro k
  cases e with
  | var o span =>
      simp only [bare, address, Locals.contains_rename]
      split <;> rfl
  | int _ _ | binary _ _ _ _ | assign _ _ _ =>
      rfl

/- The code of an expression without regions. -/
theorem code_alike
    (e : Expr) :
    (e.code locals).Alike
      (e.bare.code (locals.rename f)) := by
  induction e with
  | int value span =>
      exact Emitter.Alike.refl _
  | var o span =>
      exact (address_alike f locals (.var o span)).append
        (Emitter.Alike.refl _)
  | binary op lhs rhs span ihLeft ihRight =>
      exact ihLeft.append
        ((Emitter.Alike.refl _).append
          (ihRight.append (Emitter.Alike.refl _)))
  | assign target value span ihTarget ihValue =>
      exact (address_alike f locals target).append
        ((Emitter.Alike.refl _).append
          (ihValue.append (Emitter.Alike.refl _)))

theorem codeOption_alike
    (e : Option Expr) :
    (codeOption locals e).Alike
      (codeOption (locals.rename f) (e.map bare)) := by
  cases e with
  | none =>
      exact Emitter.Alike.refl _
  | some e =>
      exact code_alike f locals e

theorem codeUnless_alike
    (target : Label)
    (e : Expr) :
    (e.codeUnless locals target).Alike
      (e.bare.codeUnless (locals.rename f) target) :=
  (code_alike f locals e).append (Emitter.Alike.refl _)

end Expr

namespace Stmt

open Emitter (Alike)

mutual

/- The code of a statement without regions. -/
theorem code_alike :
    (s : Stmt) →
    (s.code locals).Alike
      (s.bare.code (locals.rename f))
| .expr e span =>
    Expr.code_alike f locals e
| .ret e span =>
    (Expr.code_alike f locals e).append (Alike.refl _)
| .ifThen predicate thenArm span =>
    Alike.withLabel fun id =>
      (Expr.codeUnless_alike f locals _ predicate).append
        ((code_alike thenArm).append (Alike.refl _))
| .ifElse predicate thenArm elseArm span =>
    Alike.withLabel fun id =>
      (Expr.codeUnless_alike f locals _ predicate).append
        ((code_alike thenArm).append
          ((Alike.refl _).append
            ((code_alike elseArm).append (Alike.refl _))))
| .whileLoop predicate body span =>
    Alike.withLabel fun id =>
      (Alike.refl _).append
        ((Expr.codeUnless_alike f locals _ predicate).append
          ((code_alike body).append (Alike.refl _)))
| .forLoop init predicate step body span => by
    refine Alike.withLabel fun id =>
      (Expr.codeOption_alike f locals init).append
        ((Alike.refl _).append
          (Alike.append ?_
            ((code_alike body).append
              ((Expr.codeOption_alike f locals step).append
                (Alike.refl _)))))
    cases predicate with
    | none =>
        exact Alike.refl _
    | some e =>
        exact Expr.codeUnless_alike f locals _ e
| .block body span =>
    codeAll_alike body

theorem codeAll_alike :
    (ss : List Stmt) →
    (codeAll locals ss).Alike
      (codeAll (locals.rename f) (bareAll ss))
| [] =>
    Alike.refl _
| s :: ss =>
    (code_alike s).append (codeAll_alike ss)

end

end Stmt

namespace Program

/- The code of a program without regions and renamed. -/
theorem lower_bare
    (p : Program) :
    (p.bare f).lower.bare = p.lower.bare := by
  have hBytes :
      (p.locals.rename f).bytes = p.locals.bytes := by
    rw [Locals.bytes, Locals.size_rename]
    rfl
  have hPrologue :
      prologue (p.locals.rename f) = prologue p.locals := by
    rw [prologue, frameSize, hBytes]
    rfl
  have hBody := Stmt.codeAll_alike f p.locals p.body
  have hWhole :=
    (Emitter.Alike.refl
      (Emitter.instrs (prologue p.locals))).append
      (hBody.append
        (Emitter.Alike.refl (Emitter.lines epilogue))) 0
  unfold lower bare
  rw [hPrologue]
  exact hWhole.symm

/- Programs that differ in regions and names have one text. -/
theorem generate_of_bare_eq
    {f g : String → String}
    {p q : Program}
    {target : Target}
    {text : String}
    (hBare : p.bare f = q.bare g)
    (hText : p.generate target = .ok text) :
    q.generate target = .ok text := by
  have hLower : p.lower.bare = q.lower.bare := by
    rw [← lower_bare f p, hBare, lower_bare g q]
  have hName : p.name = q.name := by
    show (p.bare f).name = (q.bare g).name
    rw [hBare]
  have hLines : p.lower.lines = q.lower.lines := by
    show p.lower.bare.lines = q.lower.bare.lines
    rw [hLower]
  have hNone :
      p.lower.fault?.isNone = q.lower.fault?.isNone := by
    have hFault := congrArg Emission.fault? hLower
    simpa [Emission.bare]
      using congrArg Option.isNone hFault
  unfold generate at hText ⊢
  cases hFault : p.lower.fault? with
  | some fault =>
      simp [hFault] at hText
  | none =>
      have hFault' : q.lower.fault? = none := by
        rw [hFault] at hNone
        exact Option.isNone_iff_eq_none.mp hNone.symm
      simp only [hFault] at hText
      simp only [hFault', ← hLines, ← hName]
      exact hText

end Program

------------------------------------------------------------
-- Sources
------------------------------------------------------------

/-
  Tokens of the same kind. If they are numbers, they have
  the same lexeme, and if they are names, the lexeme of one
  corresponds to that of the other.
-/
def Token.Alike
    (f : String → String)
    (a b : Token) : Prop :=
  a.kind = b.kind ∧
    (a.kind = .number → a.lexeme = b.lexeme) ∧
    (a.kind = .identifier → f a.lexeme = b.lexeme)

instance
    (f : String → String)
    (a b : Token) :
    Decidable (Token.Alike f a b) := by
  unfold Token.Alike
  infer_instance

/- Streams whose tokens are alike, one by one. -/
def TokenStream.Alike
    (f : String → String)
    (s s' : TokenStream) : Prop :=
  List.Forall₂ (Token.Alike f) s.toList s'.toList

/- Tokens that are alike differ only in what is erased. -/
theorem Token.Alike.bare_eq
    {f : String → String}
    {a b : Token}
    (hAlike : a.Alike f b) :
    a.bare f = b.bare id := by
  rcases hAlike with ⟨hKind, hNumber, hName⟩
  unfold Token.bare
  rw [← hKind]
  congr 1
  split
  · rename_i hCase
    exact hNumber hCase
  · rename_i hCase
    exact hName hCase
  · rfl

/- Streams that are alike differ only in what is erased. -/
theorem TokenStream.Alike.bare_eq
    {f : String → String}
    {s s' : TokenStream}
    (hAlike : s.Alike f s') :
    s.bare f = s'.bare id := by
  have hLists
      {ts ts' : List Token}
      (hAll : List.Forall₂ (Token.Alike f) ts ts') :
      ts.map (Token.bare f) = ts'.map (Token.bare id) := by
    induction hAll with
    | nil =>
        rfl
    | cons hFirst _ ih =>
        rw [List.map_cons, List.map_cons, hFirst.bare_eq, ih]
  have hStream (g : String → String) (s : TokenStream) :
      (s.bare g).toList = s.toList.map (Token.bare g) := by
    simp [toList, bare]
  have hSame :
      (s.bare f).toList = (s'.bare id).toList := by
    rw [hStream, hStream, hLists hAlike]
  have hOf := ofList?_toList (s.bare f)
  rw [hSame, ofList?_toList] at hOf
  exact (Option.some.inj hOf).symm

/- Streams that are alike are read alike. -/
theorem Program.parse_alike
    {f : String → String}
    {s s' : TokenStream}
    (hAlike : s.Alike f s')
    (hApart : KeepsApart f s.names) :
    Parsed.bare (bare f) (parse s) =
      Parsed.bare (bare id) (parse s') := by
  have hSame : KeepsApart id s'.names := fun _ _ _ _ h => h
  rw [← parse_bare hApart, ← parse_bare hSame,
    hAlike.bare_eq]

/-
  The output does not depend on layout, on how numbers are
  written or on names. Two sources whose tokens correspond,
  with names that stay apart, have the same assembly text,
  or both have the same parse error.
-/
theorem compile_ignores_layout_and_names
    {src₁ src₂ : String}
    {s₁ s₂ : TokenStream}
    {f : String → String}
    (hSize : src₁.utf8ByteSize < 2 ^ 28)
    (hLex₁ : lex src₁ = .ok s₁)
    (hLex₂ : lex src₂ = .ok s₂)
    (hAlike : s₁.Alike f s₂)
    (hApart : KeepsApart f s₁.names)
    (target : Target) :
    (∃ text,
      compile src₁ target = .ok text ∧
      compile src₂ target = .ok text) ∨
    ∃ e₁ e₂,
      compile src₁ target = .error (.parse e₁) ∧
      compile src₂ target = .error (.parse e₂) ∧
      e₁.value = e₂.value := by
  have hParsed := Program.parse_alike hAlike hApart
  cases hParse₁ : Program.parse s₁ with
  | error e₁ =>
      cases hParse₂ : Program.parse s₂ with
      | error e₂ =>
          rw [hParse₁, hParse₂] at hParsed
          refine .inr ⟨e₁, e₂,
            compile_of_parse_error hLex₁ hParse₁,
            compile_of_parse_error hLex₂ hParse₂, ?_⟩
          simpa [Parsed.bare, Located.bare] using hParsed
      | ok p₂ =>
          rw [hParse₁, hParse₂] at hParsed
          cases hParsed
  | ok p₁ =>
      cases hParse₂ : Program.parse s₂ with
      | error e₂ =>
          rw [hParse₁, hParse₂] at hParsed
          cases hParsed
      | ok p₂ =>
          rw [hParse₁, hParse₂] at hParsed
          have hBare : p₁.bare f = p₂.bare id :=
            Except.ok.inj hParsed
          have hTokens : s₁.tokens.length < 2 ^ 28 :=
            Nat.lt_of_le_of_lt
              (length_tokens_le_of_lex hLex₁) hSize
          rcases sound_of_parse hTokens hParse₁ with
            ⟨hResolved, -, -⟩
          rcases Program.generate_of_resolved hResolved
              target
            with ⟨text, hText⟩
          exact .inl ⟨text,
            compile_of_parse hLex₁ hParse₁ hText,
            compile_of_parse hLex₂ hParse₂
              (Program.generate_of_bare_eq hBare hText)⟩

/-
  Two sources with other blanks, another radix and other
  names have the same text.
-/
theorem renamed_source_compiles_alike :
    let src₁ := "i = 0x1F;\nreturn j;"
    let src₂ := "i1=31; return j1 ;"
    let f := fun name => name ++ "1"
    src₁.utf8ByteSize < 2 ^ 28 ∧
      ∃ s₁ s₂ text,
        lex src₁ = .ok s₁ ∧
        lex src₂ = .ok s₂ ∧
        s₁.Alike f s₂ ∧
        KeepsApart f s₁.names ∧
        compile src₁ .linux = .ok text ∧
        compile src₂ .linux = .ok text := by
  intro src₁ src₂ f
  let s₁ : TokenStream :=
    ⟨[⟨.identifier, "i", ⟨0, 1⟩⟩, ⟨.assign, "=", ⟨2, 1⟩⟩,
      ⟨.number, "31", ⟨4, 4⟩⟩, ⟨.semicolon, ";", ⟨8, 1⟩⟩,
      ⟨.kwReturn, "return", ⟨10, 6⟩⟩,
      ⟨.identifier, "j", ⟨17, 1⟩⟩,
      ⟨.semicolon, ";", ⟨18, 1⟩⟩], .eofAt 19, rfl⟩
  let s₂ : TokenStream :=
    ⟨[⟨.identifier, "i1", ⟨0, 2⟩⟩, ⟨.assign, "=", ⟨2, 1⟩⟩,
      ⟨.number, "31", ⟨3, 2⟩⟩, ⟨.semicolon, ";", ⟨5, 1⟩⟩,
      ⟨.kwReturn, "return", ⟨7, 6⟩⟩,
      ⟨.identifier, "j1", ⟨14, 2⟩⟩,
      ⟨.semicolon, ";", ⟨17, 1⟩⟩], .eofAt 18, rfl⟩
  have hSize : src₁.utf8ByteSize < 2 ^ 28 := by decide
  have hLex₁ : lex src₁ = .ok s₁ := by decide +kernel
  have hLex₂ : lex src₂ = .ok s₂ := by decide +kernel
  have hAlike : s₁.Alike f s₂ := by
    unfold TokenStream.Alike
    decide +kernel
  have hApart : KeepsApart f s₁.names := by decide +kernel
  have hProgram : (compile src₁ .linux).toBool = true := by
    decide +kernel
  refine ⟨hSize, s₁, s₂, ?_⟩
  rcases compile_ignores_layout_and_names hSize hLex₁ hLex₂
      hAlike hApart .linux
    with ⟨text, hText₁, hText₂⟩ | ⟨e₁, e₂, hError, -, -⟩
  · exact ⟨text, hLex₁, hLex₂, hAlike, hApart, hText₁,
      hText₂⟩
  · rw [hError] at hProgram
    cases hProgram

end WordLang
