import ParamThreading.Proofs.Layout
import ParamThreading.Proofs.Shape
import ParamThreading.Syntax.Grammar

/-!
# The checks of the rules of Go

They are evaluated rule by rule; a rule depends on its parameters only through a few Booleans.

* `Grammar.forall_symbol`  from checks of finitely many symbols to all of them;
* `Grammar.checked`  all that is checked of the rule of a symbol;
* `Grammar.laidOut`, `Grammar.bare`  the grammar passes the general checks.
-/

namespace ParamThreading

namespace Grammar

open Rule

/-! ## all symbols -/

def flags : List Bool := [false, true]

def follows : List Follow :=
  flags.flatMap fun line => flags.flatMap fun block => flags.flatMap fun send =>
    flags.map fun guard => ⟨line, block, send, guard⟩

def plainSymbols : List Symbol :=
  [.item, .importSpec, .constSpec, .varSpec, .typeSpec, .typeAlias, .typeParameters, .parameters,
    .parameter, .strongType, .typeArguments, .typeConstraint, .structType, .interfaceType,
    .fieldDeclaration, .interfaceElem, .block, .statements, .statement, .declaration, .ifStatement,
    .forStatement, .typeSwitch, .typeSwitchGuard, .expressionSwitch, .selectStatement, .defaultCase,
    .conversionTail, .arguments, .typedArguments, .literalValue, .literalElement, .stringLiteral]

def lineSymbols (line : Bool) : List Symbol :=
  [.result line, .type line, .simpleType line, .typeName line, .typeLiteral line, .typeElem line,
    .channelType line, .receiveOnly line, .arrayType line, .sliceType line, .mapType line,
    .functionType line] ++ follows.map (.assignTail line)

/-- The symbols with a parameter for what follows. Operators of five levels are tried, so that all
levels above are alike. -/
def followSymbols (f : Follow) : List Symbol :=
  [.simple f.line f.block f.send f.guard, .simpleTail f.line f.block f.send,
    .expressions f, .unary f,
    .primary f, .suffix f, .operand f, .named f] ++ [0, 1, 2, 3, 4, 5, 6].map (.expression f)

theorem mem_flags (b : Bool) : b ∈ flags := by cases b <;> decide

theorem mem_follows (f : Follow) : f ∈ follows := by
  obtain ⟨line, block, send, guard⟩ := f
  simp [follows, mem_flags]

/-- The symbols up to the sixth level of expressions pass a check. -/
def passAll (check : Symbol → Bool) : Bool :=
  plainSymbols.all check && flags.all (fun line => (lineSymbols line).all check) &&
    follows.all fun f => (followSymbols f).all check

/-- What is checked of these symbols holds of all, if the higher levels are like the sixth. -/
theorem forall_symbol {check : Symbol → Bool} (h : passAll check = true)
    (hlevel : ∀ f level, check (.expression f (level + 6)) = check (.expression f 6)) (s : Symbol) :
    check s = true := by
  simp only [passAll, Bool.and_eq_true, List.all_eq_true] at h
  obtain ⟨⟨hplain, hline⟩, hfollow⟩ := h
  have hline := fun line => hline line (mem_flags line)
  have hfollow := fun f => hfollow f (mem_follows f)
  cases s with
  | result line | type line | simpleType line | typeName line | typeLiteral line | typeElem line
  | channelType line | receiveOnly line | arrayType line | sliceType line | mapType line
  | functionType line => exact hline line _ (by simp [lineSymbols])
  | assignTail line f => exact hline line _ (by simp [lineSymbols, mem_follows])
  | simple line block restBlock guard =>
    exact hfollow ⟨line, block, restBlock, guard⟩ _ (by simp [followSymbols])
  | simpleTail line restBlock guard =>
    exact hfollow ⟨line, restBlock, guard, false⟩ _ (by simp [followSymbols])
  | expressions f | unary f | primary f | suffix f | operand f | named f =>
    exact hfollow f _ (by simp [followSymbols])
  | expression f level =>
    rcases level with _ | _ | _ | _ | _ | _ | level
    case succ.succ.succ.succ.succ.succ =>
      rw [hlevel]
      exact hfollow f _ (by simp [followSymbols])
    all_goals exact hfollow f _ (by simp [followSymbols])
  | _ => exact hplain _ (by decide)
/-! ## checks -/

def putsHeld : Symbol → Bool
  | .simpleTail .. | .assignTail .. | .suffix _ | .conversionTail => true
  | _ => false

/-- The symbols whose rules give no roles: all but the head of a type switch. -/
def isPlain : Symbol → Bool
  | .typeSwitchGuard => false
  | _ => true

def isItem : Symbol → Bool
  | .item => true
  | _ => false

def makesCall : Symbol → Bool
  | .suffix _ | .operand _ => true
  | _ => false

def isCall : Kind → Bool
  | .callExpression => true
  | _ => false

def isDeclaration : Kind → Bool
  | .functionDeclaration | .methodDeclaration => true
  | _ => false

def isFunction : Kind → Bool
  | .functionDeclaration | .methodDeclaration | .funcLiteral => true
  | _ => false

/-- Functions and argument lists open with a token, and their children cover some text. -/
def isOpened : Kind → Bool
  | .functionDeclaration | .methodDeclaration | .funcLiteral | .argumentList => true
  | _ => false

def beginsWithToken : Production → Bool
  | .seq (.token _) _ => true
  | _ => false

def passes (s : Symbol) : Bool :=
  (rule s).isLaidOut putsHeld && (rule s).isSoft && (rule s).isFilled &&
    (!(rule s).usesHeld putsHeld || putsHeld s) &&
    (rule s).holdsBare isPlain && (!isPlain s || (rule s).isBare isPlain) &&
    (rule s).yields Kind.isSolid && (rule s).refs.all (!isItem ·) &&
    (isItem s || (rule s).forms.all (!isDeclaration ·.1)) &&
    (makesCall s || (rule s).forms.all (!isCall ·.1)) &&
    (rule s).leaves.all (fun k => !isOpened k && !isCall k) &&
    (rule s).forms.all
      (fun p => p.1.isNamed && (!isOpened p.1 || beginsWithToken p.2 && p.2.yields Kind.isSolid))

theorem passes_all (s : Symbol) : passes s = true := by
  refine forall_symbol (by decide +kernel) (fun f level => ?_) s
  obtain ⟨line, block, send, guard⟩ := f
  cases line <;> rfl

structure Checked (s : Symbol) : Prop where
  isLaidOut : (rule s).isLaidOut putsHeld = true
  isSoft : (rule s).isSoft = true
  isFilled : (rule s).isFilled = true
  usesHeld : (rule s).usesHeld putsHeld = true → putsHeld s = true
  holdsBare : (rule s).holdsBare isPlain = true
  isBare : isPlain s = true → (rule s).isBare isPlain = true
  solid : (rule s).yields Kind.isSolid = true
  refs : ∀ t ∈ (rule s).refs, t ≠ .item
  declarations : s ≠ .item → ∀ p ∈ (rule s).forms, isDeclaration p.1 = false
  calls : makesCall s = false → ∀ p ∈ (rule s).forms, isCall p.1 = false
  leaves : ∀ k ∈ (rule s).leaves, isOpened k = false ∧ isCall k = false
  named : ∀ p ∈ (rule s).forms, p.1.isNamed = true
  opened : ∀ p ∈ (rule s).forms, isOpened p.1 = true →
    beginsWithToken p.2 = true ∧ p.2.yields Kind.isSolid = true

theorem isOpened_of_isFunction {k : Kind} (h : isFunction k = true) : isOpened k = true := by
  revert h
  cases k <;> decide

theorem isItem_eq_false {s : Symbol} : isItem s = false ↔ s ≠ .item := by
  cases s <;> simp [isItem]

theorem checked (s : Symbol) : Checked s := by
  have h := passes_all s
  simp only [passes, Bool.and_eq_true, Bool.or_eq_true, Bool.not_eq_true', List.all_eq_true,
    isItem_eq_false] at h
  obtain ⟨⟨⟨⟨⟨⟨⟨⟨⟨⟨⟨h₁, h₂⟩, h₃⟩, h₄⟩, h₅⟩, h₆⟩, hsolid⟩, h₇⟩, h₈⟩, h₉⟩, h₁₀⟩, h₁₁⟩ := h
  refine ⟨h₁, h₂, h₃, fun e => ?_, h₅, fun e => ?_, hsolid, h₇, fun e => ?_, fun e => ?_, h₁₀,
    fun p hp => (h₁₁ p hp).1, fun p hp e => ?_⟩
  · exact h₄.resolve_left (by rw [e]; decide)
  · exact h₆.resolve_left (by rw [e]; decide)
  · exact h₈.resolve_left (by rw [isItem_eq_false.mpr e]; decide)
  · exact h₉.resolve_left (by rw [e]; decide)
  · exact (h₁₁ p hp).2.resolve_left (by rw [e]; decide)

theorem laidOut : LaidOut rule putsHeld :=
  ⟨fun s => (checked s).isLaidOut, fun s => (checked s).isSoft, fun s => (checked s).isFilled,
    fun s => (checked s).usesHeld⟩

theorem bare : Bare rule isPlain :=
  ⟨fun s => (checked s).holdsBare, fun s => (checked s).isBare, fun s => (checked s).solid⟩

end Grammar

end ParamThreading
