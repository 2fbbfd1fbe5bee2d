import ParamThreading.Proofs.PackageNames

/-!
# Values from outside the program

A name that is given a call or a selector holds a foreign value if the name at the root of that
expression does, or is an import from outside. This is asked when the place is visited, so the
answer depends on the places visited before it and on the items scanned before. Since an item is
scanned from its end to its start, what stands in front of a place in the text is not known there.

* `Occurrence.root?`  the name that the answer depends on;
* `Names.given_eq_iff`  when two states tell the same;
* `Occurrence.Visited`  a place when it is visited, against the same place in the end;
* `Program.occurrence_visited`  every place of a program is so.
-/

namespace ParamThreading

/-! ## the name at the root -/

namespace Node

/-- The name that an expression begins with, such as `f` in `f.m(1).n`. -/
def root? (text : String) (e : Node) : Option String :=
  (e.reach? Names.originStep).bind fun n =>
    if n.kind = .identifier then some (n.text text) else none

end Node

namespace Occurrence

/-- The expression that may give a foreign value to a name: a call or a selector for the name alone,
or the one value for several names. -/
def asked? (text : String) (o : Occurrence) : Option Node :=
  if o.node.targets.length = o.node.values.length then
    (o.node.values[o.index]?).bind fun e => (e.reach? (Names.valueStep text)).filter fun n =>
      n.kind = .selectorExpression ||
        (n.kind = .callExpression && n.textIn? .function text != some "new")
  else match o.node.values with
    | [e] => some e
    | _ => none

def root? (text : String) (o : Occurrence) : Option String := (o.asked? text).bind (·.root? text)

theorem asked?_of_no_values {text : String} {o : Occurrence} (h : o.node.values = []) :
    o.asked? text = none := by
  simp [asked?, h]

end Occurrence

namespace Names

variable {names names' : Names} {file : FileId} {bs bs' : Bindings}

def isForeignName (names : Names) (file : FileId) (bs : Bindings) (x : String) : Bool :=
  match names.lookup file bs x with
  | some .foreign => true
  | some (.type t) => names.program.typeTarget file t == .foreign
  | some _ => false
  | none => names.program.imported file x == .foreign

theorem isForeign_root {e : Node} {x : String}
    (h : e.root? (names.program.file file).text = some x) :
    names.isForeign file bs e = names.isForeignName file bs x := by
  obtain ⟨n, hn, h⟩ := Option.bind_eq_some_iff.mp h
  split at h
  case isTrue hk =>
    cases h
    cases hlookup : names.lookup file bs (n.text (names.program.file file).text) with
    | none => simp [isForeign, isForeignName, hn, hk, hlookup]
    | some value => cases value <;> simp [isForeign, isForeignName, hn, hk, hlookup]
  case isFalse => cases h

theorem isForeign_congr (hprogram : names.program = names'.program) {e : Node}
    (h : ∀ x, e.root? (names.program.file file).text = some x →
      names.isForeignName file bs x = names'.isForeignName file bs' x) :
    names.isForeign file bs e = names'.isForeign file bs' e := by
  cases hroot : e.root? (names.program.file file).text with
  | some x => rw [isForeign_root hroot, h x hroot, isForeign_root (hprogram ▸ hroot)]
  | none =>
    unfold isForeign
    rw [← hprogram]
    cases hn : e.reach? originStep with
    | none => rfl
    | some n =>
      have hk : n.kind ≠ .identifier := by
        intro hk
        simp [Node.root?, hn, hk] at hroot
      simp only [Option.any_some]
      split
      case h_1 hident => exact absurd hident hk
      case h_2 => rfl
      case h_3 => rfl

/-! ## what the values tell -/

theorem given_asked {o : Occurrence} {e : Node}
    (h : o.asked? (names.program.file file).text = some e) :
    names.given file bs o = if names.isForeign file bs e then .foreign else .unknown := by
  unfold Occurrence.asked? at h
  unfold given valueAt
  split at h
  case isTrue hcount =>
    rw [if_pos hcount]
    obtain ⟨v, hv, hreach⟩ := Option.bind_eq_some_iff.mp h
    obtain ⟨hreach, hk⟩ := Option.filter_eq_some_iff.mp hreach
    rw [hv, Option.map_some, Option.getD_some, valueOf]
    simp only [hreach]
    simp only [Bool.or_eq_true, Bool.and_eq_true, decide_eq_true_eq, bne_iff_ne] at hk
    rcases hk with hk | ⟨hk, hnew⟩
    · simp only [hk]
    · simp only [hk, if_neg hnew]
  case isFalse hcount =>
    rw [if_neg hcount]
    rcases hvalues : o.node.values with _ | ⟨v, _ | ⟨v', rest⟩⟩
    · rw [hvalues] at h
      cases h
    · rw [hvalues] at h
      cases h
      rfl
    · rw [hvalues] at h
      cases h

theorem given_unasked {o : Occurrence} (hprogram : names.program = names'.program)
    (hfunctions : names.functions = names'.functions)
    (h : o.asked? (names.program.file file).text = none) :
    names.given file bs o = names'.given file bs' o := by
  unfold Occurrence.asked? at h
  unfold given valueAt
  split at h
  case isTrue hcount =>
    rw [if_pos hcount, if_pos hcount]
    cases hv : o.node.values[o.index]? with
    | none => rfl
    | some v =>
      rw [hv, Option.bind_some] at h
      rw [Option.map_some, Option.map_some, Option.getD_some, Option.getD_some, valueOf, valueOf,
        ← hprogram, ← hfunctions]
      cases hreach : v.reach? (valueStep (names.program.file file).text) with
      | none => rfl
      | some n =>
        rw [hreach] at h
        have hk : n.kind ≠ .selectorExpression ∧ (n.kind = .callExpression →
            n.textIn? .function (names.program.file file).text = some "new") := by
          simpa [Option.filter] using h
        dsimp only
        split
        case h_1 => rfl
        case h_2 => rfl
        case h_3 hcall => rw [if_pos (hk.2 hcall), if_pos (hk.2 hcall)]
        case h_4 hselector => exact absurd hselector hk.1
        case h_5 => rfl
  case isFalse hcount =>
    rw [if_neg hcount, if_neg hcount]
    rcases hvalues : o.node.values with _ | ⟨e, _ | ⟨e', rest⟩⟩
    · rfl
    · rw [hvalues] at h
      cases h
    · rfl

/-- Two states of the names of a program tell the same of a name just if they agree on the name at
the root of its value. -/
theorem given_eq_iff {p : Program} {o : Occurrence} (hprogram : names.program = p)
    (hprogram' : names'.program = p) (hfunctions : names.functions = names'.functions) :
    names.given file bs o = names'.given file bs' o ↔
      ∀ x, o.root? (p.file file).text = some x →
        names.isForeignName file bs x = names'.isForeignName file bs' x := by
  subst hprogram
  unfold Occurrence.root?
  cases hasked : o.asked? (names.program.file file).text with
  | none =>
    refine ⟨fun _ => nofun, fun _ => given_unasked hprogram'.symm hfunctions hasked⟩
  | some e =>
    rw [given_asked hasked, given_asked (hprogram' ▸ hasked)]
    constructor
    · intro h x hroot
      rw [← isForeign_root hroot, ← isForeign_root (hprogram' ▸ hroot)]
      cases hforeign : names.isForeign file bs e <;>
        cases hforeign' : names'.isForeign file bs' e <;>
        simp_all
    · intro h
      rw [isForeign_congr hprogram'.symm h]

/-- A name without a declared type that is given a call or a selector is recorded with what the
value tells. -/
theorem tells?_asked {o : Occurrence} {e : Node}
    (h : o.asked? (names.program.file file).text = some e)
    (hdeclared : o.declared? (names.program.file file).text = none)
    (hcounts : o.countsIf false = true) :
    names.tells? file bs o = some (names.given file bs o) := by
  have hvalues : o.node.values ≠ [] := by
    intro hnil
    rw [Occurrence.asked?_of_no_values hnil] at h
    cases h
  have hgiven : names.given file bs o = .foreign ∨ names.given file bs o = .unknown := by
    rw [given_asked h]
    cases names.isForeign file bs e with
    | true => exact .inl rfl
    | false => exact .inr rfl
  unfold tells?
  unfold Occurrence.countsIf at hcounts
  dsimp only
  -- parameters and range clauses have no values, and an assignment does not count
  split
  case h_1 hk => exact absurd (by simp [Node.values, hk]) hvalues
  case h_2 hk => exact absurd (by simp [Node.values, hk]) hvalues
  case h_3 hk =>
    rw [hk] at hcounts
    rw [if_pos (of_decide_eq_true hcounts)]
  case h_4 hk => simp [hk] at hcounts
  case h_5 => rcases hgiven with hgiven | hgiven <;> rw [hgiven, hdeclared]
  case h_6 => rcases hgiven with hgiven | hgiven <;> rw [hgiven, hdeclared]
  case h_7 hk => exact absurd (by simp [Node.values, hk]) hvalues
  case h_8 => split at hcounts <;> simp_all

def visited (names : Names) (item : Item) (k : Nat) : Bindings :=
  (item.occurrences.take k).foldl (names.recordAt item.file) []

end Names

/-! ## visits -/

/-- The `k`-th place of the `i`-th item when it is visited, with the bindings and names that are
known then, against the same place with all that is known of the item and of the packages in the
end. -/
structure Occurrence.Visited (p : Program) (i : Nat) (item : Item) (k : Nat) (seen : Names)
    (bs : Bindings) (names : Names) (final : Bindings) (o : Occurrence) : Prop where
  /-- The values tell the same just if both states agree on the name at their root. -/
  agrees : seen.given item.file bs o = names.given item.file final o ↔
    ∀ x, o.root? (p.file item.file).text = some x →
      seen.isForeignName item.file bs x = names.isForeignName item.file final x
  /-- What is visited before lies around the place or behind it. -/
  before : ∀ o' ∈ item.occurrences.take k,
    o.node ∈ o'.node.everything ∨ o.node.stop ≤ o'.node.start
  /-- What is visited after lies in it or in front of it. -/
  after : ∀ o' ∈ item.occurrences.drop (k + 1),
    o'.node ∈ o.node.everything ∨ o'.node.stop ≤ o.node.start
  /-- A name that is not bound at a place visited before is taken for one of the package or an
  import. -/
  unseen : ∀ x, (∀ o' ∈ item.occurrences.take k, o'.name (p.file item.file).text ≠ x) →
    seen.isForeignName item.file bs x = seen.isForeignName item.file [] x
  /-- Both states agree on a name that is bound at places visited before only, or that is not bound
  in the item and not declared by the item or a later one. -/
  settled : ∀ x, (∀ o' ∈ item.occurrences.drop k, o'.name (p.file item.file).text ≠ x) →
    (bs.get? x).isSome = true ∨
      (∀ j ∈ p.items.drop i, ¬ j.Declares p (p.file item.file).package x) →
    seen.isForeignName item.file bs x = names.isForeignName item.file final x
  /-- A name that is declared at this place only, without a type, is known to hold a foreign value
  just if its value is taken for foreign at the visit. Calls of methods on it then reach nothing,
  and else all methods of the name. -/
  decides : ∀ e, o.asked? (p.file item.file).text = some e →
    o.declared? (p.file item.file).text = none → o.countsIf false = true →
    o.name (p.file item.file).text ≠ "_" →
    (∀ o' ∈ item.occurrences.take k ++ item.occurrences.drop (k + 1),
      o'.name (p.file item.file).text ≠ o.name (p.file item.file).text) →
    final.get? (o.name (p.file item.file).text) =
        some (if seen.isForeign item.file bs e then .foreign else .unknown) ∧
      ∀ call m, call.methodCall? (p.file item.file).text =
        some (o.name (p.file item.file).text, m) → names.callees item.file final call =
          if seen.isForeign item.file bs e then [] else names.methodsNamed m

section
variable {p : Program} {i k : Nat} {item : Item} {o : Occurrence}

theorem Names.isForeignName_congr {names names' : Names} {file : FileId} {bs bs' : Bindings}
    {x : String} (hprogram : names.program = names'.program)
    (h : names.lookup file bs x = names'.lookup file bs' x) :
    names.isForeignName file bs x = names'.isForeignName file bs' x := by
  unfold isForeignName
  rw [h, hprogram]

namespace Names

variable {seen names : Names} {x : String}

theorem bindingsOf_drop (seen : Names) (item : Item) (k : Nat) : seen.bindingsOf item =
    (item.occurrences.drop k).foldl (seen.recordAt item.file) (seen.visited item k) := by
  rw [bindingsOf_eq, visited, ← List.foldl_append, List.take_append_drop]

theorem get?_sole (ho : item.occurrences[k]? = some o)
    (hblank : o.name (seen.program.file item.file).text ≠ "_")
    (hsole : ∀ o' ∈ item.occurrences.take k ++ item.occurrences.drop (k + 1),
      o'.name (seen.program.file item.file).text ≠ o.name (seen.program.file item.file).text) :
    (seen.bindingsOf item).get? (o.name (seen.program.file item.file).text) =
      seen.tells? item.file (seen.visited item k) o := by
  have hbefore : (seen.visited item k).get? (o.name (seen.program.file item.file).text) = none :=
    foldl_recordAt_other fun o' ho' => hsole o' (List.mem_append_left _ ho')
  rw [bindingsOf_eq, ← take_append_cons_drop ho, List.foldl_append, List.foldl_cons,
    foldl_recordAt_other fun o' ho' => hsole o' (List.mem_append_right _ ho')]
  show (seen.recordAt item.file (seen.visited item k) o).get? _ = _
  unfold recordAt
  cases seen.tells? item.file (seen.visited item k) o with
  | none => exact hbefore
  | some value => simp [Bindings.get?_bind, hblank, hbefore]

theorem callees_sole (hprogram : seen.program = p) (hprogram' : names.program = p)
    (ho : item.occurrences[k]? = some o) {e : Node}
    (hasked : o.asked? (p.file item.file).text = some e)
    (hdeclared : o.declared? (p.file item.file).text = none) (hcounts : o.countsIf false = true)
    (hblank : o.name (p.file item.file).text ≠ "_")
    (hsole : ∀ o' ∈ item.occurrences.take k ++ item.occurrences.drop (k + 1),
      o'.name (p.file item.file).text ≠ o.name (p.file item.file).text) :
    (seen.bindingsOf item).get? (o.name (p.file item.file).text) =
        some (if seen.isForeign item.file (seen.visited item k) e then .foreign else .unknown) ∧
      ∀ call m, call.methodCall? (p.file item.file).text =
        some (o.name (p.file item.file).text, m) →
        names.callees item.file (seen.bindingsOf item) call =
          if seen.isForeign item.file (seen.visited item k) e then []
          else names.methodsNamed m := by
  subst hprogram
  have hget := (get?_sole ho hblank hsole).trans
    ((tells?_asked hasked hdeclared hcounts).trans (congrArg some (given_asked hasked)))
  refine ⟨hget, fun call m hcall => ?_⟩
  rw [← hprogram'] at hcall
  rw [callees_selector hcall (by rw [lookup, hprogram', hget, Option.some_or])]
  split <;> rfl

theorem lookup_settled
    (h : ∀ o' ∈ item.occurrences.drop k, o'.name (p.file item.file).text ≠ x)
    (hdeclared : (((p.namesAt i).visited item k).get? x).isSome = true ∨
      ∀ j ∈ p.items.drop i, ¬ j.Declares p (p.file item.file).package x) :
    (p.namesAt i).lookup item.file ((p.namesAt i).visited item k) x =
      (ofProgram p).1.lookup item.file ((p.namesAt i).bindingsOf item) x := by
  have hget : ((p.namesAt i).bindingsOf item).get? x = ((p.namesAt i).visited item k).get? x := by
    rw [bindingsOf_drop _ item k]
    refine foldl_recordAt_other ?_
    rw [Program.program_namesAfter]
    exact h
  unfold lookup
  rw [hget, program_ofProgram, Program.program_namesAfter]
  rcases hdeclared with hsome | hnone
  · obtain ⟨value, hvalue⟩ := Option.isSome_iff_exists.mp hsome
    rw [hvalue, Option.some_or, Option.some_or]
  · -- the package is asked if the item does not bind the name, and nothing is added to it from
    -- here on
    congr 1
    rw [← Program.namesAfter_items]
    nth_rewrite 1 [← List.take_append_drop i p.items]
    rw [Program.lookup_namesAfter hnone]

theorem isForeignName_unseen (hprogram : seen.program = p)
    (h : ∀ o' ∈ item.occurrences.take k, o'.name (p.file item.file).text ≠ x) :
    seen.isForeignName item.file (seen.visited item k) x = seen.isForeignName item.file [] x := by
  subst hprogram
  refine isForeignName_congr rfl ?_
  unfold lookup
  rw [visited, foldl_recordAt_other h]

end Names

/-- Every place of a program is visited with what the places and items scanned before it tell. -/
theorem Program.occurrence_visited (hloaded : p.Loaded) (hi : p.items[i]? = some item)
    (ho : item.occurrences[k]? = some o) :
    (item, (p.namesAt i).bindingsOf item) ∈ (Names.ofProgram p).2 ∧
    o.Visited p i item k (p.namesAt i) ((p.namesAt i).visited item k) (Names.ofProgram p).1
      ((p.namesAt i).bindingsOf item) := by
  have hseen := p.program_namesAfter (p.items.take i)
  have hnames := Names.program_ofProgram p
  have hfunctions :=
    (p.functions_namesAfter (p.items.take i)).trans (Names.functions_ofProgram p).symm
  -- of two places the one that is visited later lies in the other one or in front of it
  have hordered := Item.occurrences_ordered hloaded.wellFormed (List.mem_of_getElem? hi)
  rw [← take_append_cons_drop ho, List.pairwise_append, List.pairwise_cons] at hordered
  refine ⟨mem_scanned.mpr ⟨_, _, (take_append_cons_drop hi).symm, rfl⟩, ?_, ?_, ?_, ?_, ?_, ?_⟩
  · exact Names.given_eq_iff hseen hnames hfunctions
  · intro o' ho'
    exact hordered.2.2 o' ho' o List.mem_cons_self
  · exact hordered.2.1.1
  · intro x hx
    exact Names.isForeignName_unseen hseen hx
  · intro x hx hdeclared
    exact Names.isForeignName_congr (hseen.trans hnames.symm) (Names.lookup_settled hx hdeclared)
  · intro e hasked hdeclared hcounts hblank hsole
    exact Names.callees_sole hseen hnames ho hasked hdeclared hcounts hblank hsole

end

def derivedSources : List (Path × String) :=
  [(⟨"a.go"⟩, "package p\n\nimport \"os\"\n\nfunc (t T) Sub() \x7b\x7d\n\n" ++
    "func h() \x7b\n\tf := os.Stdin\n\tg := f.Sub()\n\tg.Sub()\n\x7d\n")]

/-- The place of `g` is visited before that of `f`. So `f` is not known to be foreign then, as it is
in the end, and the call of a method on `g` reaches a method of the program. -/
theorem Program.occurrence_visited_derived : ∃ p item o call,
    Program.ofSources (fun _ => none) derivedSources = .ok p ∧ p.items[1]? = some item ∧
    item.occurrences[0]? = some o ∧ o.root? (p.file item.file).text = some "f" ∧
    (p.namesAt 1).isForeignName item.file ((p.namesAt 1).visited item 0) "f" = false ∧
    (Names.ofProgram p).1.isForeignName item.file ((p.namesAt 1).bindingsOf item) "f" = true ∧
    call ∈ item.node.backward ∧
    call.methodCall? (p.file item.file).text = some (o.name (p.file item.file).text, "Sub") ∧
    (Names.ofProgram p).1.callees item.file ((p.namesAt 1).bindingsOf item) call = [3] ∧
    o.Visited p 1 item 0 (p.namesAt 1) ((p.namesAt 1).visited item 0) (Names.ofProgram p).1
      ((p.namesAt 1).bindingsOf item) := by
  have hchecked : (Program.ofSources (fun _ => none) derivedSources).toOption.any (fun p =>
      (p.items[1]?).any fun item => (item.occurrences[0]?).any fun o =>
        o.root? (p.file item.file).text == some "f" &&
        (!(p.namesAt 1).isForeignName item.file ((p.namesAt 1).visited item 0) "f") &&
        (Names.ofProgram p).1.isForeignName item.file ((p.namesAt 1).bindingsOf item) "f" &&
        item.node.backward.any fun call => call.methodCall? (p.file item.file).text ==
            some (o.name (p.file item.file).text, "Sub") &&
          (Names.ofProgram p).1.callees item.file ((p.namesAt 1).bindingsOf item) call == [3]) =
            true := by
    decide +kernel
  obtain ⟨p, hp, hchecked⟩ := any_toOption.mp hchecked
  simp only [Option.any_eq_true, Bool.and_eq_true, List.any_eq_true, beq_iff_eq,
    Bool.not_eq_true'] at hchecked
  obtain ⟨item, hi, o, ho, ⟨⟨hroot, hvisit⟩, hfinal⟩, call, hcall, hmethod, hcallees⟩ := hchecked
  exact ⟨p, item, o, call, hp, hi, ho, hroot, hvisit, hfinal, hcall, hmethod, hcallees,
    (occurrence_visited (.sources hp) hi ho).2⟩

end ParamThreading
