import Mathlib.Data.List.SplitBy
import ParamThreading.Proofs.Independence

/-!
# The parameter that comes first in a list

What is to be inserted in front of a list comes before the parameters in it. A request to add a
parameter is skipped if the parameter that comes first has its name and its type. The type of a
variadic parameter is compared without the dots in front of it.

* `Blank.flatten_words`  words are all that is not blank;
* `Grammar.parameter_of_list`  the elements of parameter lists;
* `Edits.Leads`  the parameter that comes first;
* `Edits.addParameter_skips`  requests that are skipped, and those that are not.
-/

namespace ParamThreading

namespace Blank

theorem all_or_none {run : List Char} (h : run.IsChain fun a b => (holds a == holds b) = true) :
    run.all holds = true ∨ ∀ c ∈ run, holds c = false := by
  have hpairs : run.Pairwise fun a b => holds a = holds b :=
    (h.imp fun _ _ heq => beq_iff_eq.mp heq).pairwise
  cases run with
  | nil => exact .inl rfl
  | cons c cs =>
    have hsame := (List.pairwise_cons.mp hpairs).1
    cases hc : holds c with
    | true =>
      refine .inl (List.all_eq_true.mpr fun b hb => ?_)
      rcases List.mem_cons.mp hb with rfl | hb
      · exact hc
      · rw [← hsame b hb, hc]
    | false =>
      refine .inr fun b hb => ?_
      rcases List.mem_cons.mp hb with rfl | hb
      · exact hc
      · rw [← hsame b hb, hc]

theorem flatten_words (cs : List Char) : (words cs).flatten = cs.filter (!holds ·) := by
  have hruns : ∀ run ∈ cs.splitBy (fun a b => holds a == holds b),
      run.all holds = true ∨ ∀ c ∈ run, holds c = false :=
    fun run hrun => all_or_none (List.isChain_of_mem_splitBy hrun)
  have hall :
      ∀ runs : List (List Char), (∀ run ∈ runs, run.all holds = true ∨ ∀ c ∈ run, holds c = false) →
      (runs.filter fun run => !run.all holds).flatten = runs.flatten.filter (!holds ·) := by
    intro runs h
    induction runs with
    | nil => rfl
    | cons run runs ih =>
      have hrest := ih fun r hr => h r (List.mem_cons_of_mem run hr)
      rw [List.flatten_cons, List.filter_append, ← hrest]
      rcases h run List.mem_cons_self with hblank | hnone
      · have hnil : run.filter (!holds ·) = [] := by simpa using hblank
        rw [List.filter_cons_of_neg (by simp [hblank]), hnil, List.nil_append]
      · have hself : run.filter (!holds ·) = run := by simpa using hnone
        rw [hself]
        cases run with
        | nil => rfl
        | cons c cs => rw [List.filter_cons_of_pos (by simp [hnone c]), List.flatten_cons]
  rw [words, hall _ hruns, List.flatten_splitBy]

theorem words_dots_ne (cs : List Char) : words ("...".toList ++ cs) ≠ words cs := by
  intro h
  have hlength := congrArg (·.flatten.length) h
  rw [flatten_words, flatten_words, List.filter_append, List.length_append] at hlength
  have hdots : ("...".toList.filter (!holds ·)).length = 3 := by decide
  omega

end Blank

namespace Grammar

open Rule

variable {among : Symbol → Prop}

theorem parameter_of_list {n c : Node} (hn : Made rule among n) (hk : n.kind = .parameterList)
    (hc : c ∈ n.codeChildren) :
    c.kind = .parameterDeclaration ∨ c.kind = .variadicParameterDeclaration := by
  obtain ⟨hmem, hnamed⟩ := List.mem_filter.mp hc
  cases hn with
  | leaf hnil =>
    rw [hnil] at hmem
    cases hmem
  | @form s _ _ _ _ _ hform _ hread =>
    rw [hk] at hform
    obtain ⟨body, -, -, -, -, -, hbody, -⟩ := reads_list hform rfl hread
    have hforms : Kind.parameterList ∈ (rule s).forms.map (·.1) := List.mem_map_of_mem hform
    cases s with
    | parameters =>
      cases List.mem_singleton.mp hform
      -- a list is made of marks and parameters
      rcases hread.of_isFlat rfl c hmem with htoken | ⟨s, hs, ts', rest', ys, hread, hc⟩
      · rw [htoken] at hnamed
        cases hnamed
      · have hs : s = .parameter := by simpa [seqs, opt, list, mark, refs] using hs
        subst hs
        rcases reads_alt hread with hread | hread
        · obtain ⟨zs, rfl, -⟩ := reads_node hread
          cases List.mem_singleton.mp hc
          exact .inr rfl
        · rcases reads_alt hread with hread | hread <;>
          · obtain ⟨zs, rfl, -⟩ := reads_node hread
            cases List.mem_singleton.mp hc
            exact .inl rfl
    | arguments => exact absurd hforms (by decide)
    | typedArguments => exact absurd hforms (by decide)
    | _ => cases hbody

end Grammar

/-! ## the first parameter -/

/-- The type of a parameter: that of a variadic parameter has dots in front. -/
def Node.goType (text : String) (declaration type : Node) : String :=
  if declaration.kind = .variadicParameterDeclaration then "..." ++ type.text text
  else type.text text

namespace Edits

variable {p : Program} {e : Edits} {a : Address} {file : FileId} {list : Node} {name type : String}
  {read : Node → Node → String}

/-- The parameter that comes first in a list: the one that was inserted last, or else the first name
that is declared. Types of declarations are read from the declaration and the node of the type. -/
inductive Leads (e : Edits) (p : Program) (file : FileId) (list : Node)
    (read : Node → Node → String) : String → String → Prop where
  | pending {name type : String} : e.leading? file (list.start + 1) = some (.parameter name type) →
      Leads e p file list read name type
  | declared {declaration name type : Node} : e.leading? file (list.start + 1) = none →
      list.codeChildren.head? = some declaration →
      (declaration.childrenIn .name).head? = some name → declaration.child? .type = some type →
      Leads e p file list read (name.text (p.file file).text) (read declaration type)

/-- The first parameter has a name, and the words of its type are those of a type. Only the amount
of white space between words is disregarded: `map[string] int` and `map[string]int` count as
different types. -/
def LeadsWith (e : Edits) (p : Program) (file : FileId) (list : Node) (read : Node → Node → String)
    (name type : String) : Prop :=
  ∃ t, e.Leads p file list read name t ∧ Blank.words t.toList = Blank.words type.toList

/-- The first parameter as it is compared, without the dots of a variadic one. -/
abbrev LeadsAsWritten (e : Edits) (p : Program) (file : FileId) (list : Node) (name type : String) :
    Prop :=
  e.LeadsWith p file list (fun _ t => t.text (p.file file).text) name type

/-- The first parameter as Go has it. -/
abbrev LeadsInGo (e : Edits) (p : Program) (file : FileId) (list : Node) (name type : String) :
    Prop :=
  e.LeadsWith p file list (Node.goType (p.file file).text) name type

theorem sameType_iff {s t : String} :
    sameType s t = true ↔ Blank.words s.toList = Blank.words t.toList :=
  beq_iff_eq

theorem firstParameter?_eq {text : String} {d : Node}
    (hd : d.kind = .parameterDeclaration ∨ d.kind = .variadicParameterDeclaration) :
    firstParameter? text d = (d.childrenIn .name).head?.bind fun name =>
      (d.child? .type).map fun type => (name.text text, type.text text) := by
  have hnot : ¬ (d.kind ≠ .parameterDeclaration ∧ d.kind ≠ .variadicParameterDeclaration) := by
    rintro ⟨h₁, h₂⟩
    exact hd.elim h₁ h₂
  unfold firstParameter?
  rw [if_neg hnot]
  cases (d.childrenIn .name).head? with
  | none => rfl
  | some name =>
    cases d.child? .type with
    | none => rfl
    | some type => rfl

theorem hasParameter_iff
    (hlist : ∀ c ∈ list.codeChildren, c.kind = .parameterDeclaration ∨
      c.kind = .variadicParameterDeclaration) :
    e.hasParameter (p.file file).text file (list.start + 1) list.codeChildren name type = true ↔
      e.LeadsAsWritten p file list name type := by
  unfold hasParameter
  cases hleading : e.leading? file (list.start + 1) with
  | some inserted =>
    cases inserted with
    | parameter n t =>
      simp only [Bool.and_eq_true, beq_iff_eq, sameType_iff]
      constructor
      · rintro ⟨rfl, hwords⟩
        exact ⟨t, .pending hleading, hwords⟩
      · rintro ⟨t', hleads, hwords⟩
        cases hleads with
        | pending h =>
          rw [hleading] at h
          cases h
          exact ⟨rfl, hwords⟩
        | declared h =>
          rw [hleading] at h
          cases h
    | argument n =>
      constructor
      · exact nofun
      · rintro ⟨t, hleads, -⟩
        cases hleads with
        | pending h | declared h =>
          rw [hleading] at h
          cases h
  | none =>
    simp only [Option.any_eq_true, Option.bind_eq_some_iff, Bool.and_eq_true, beq_iff_eq,
      sameType_iff]
    constructor
    · rintro ⟨⟨n, t⟩, ⟨d, hd, hfirst⟩, rfl, hwords⟩
      rw [firstParameter?_eq (hlist d (List.mem_of_mem_head? hd))] at hfirst
      obtain ⟨name, hname, hfirst⟩ := Option.bind_eq_some_iff.mp hfirst
      obtain ⟨type, htype, hpair⟩ := Option.map_eq_some_iff.mp hfirst
      cases hpair
      exact ⟨_, .declared hleading hd hname htype, hwords⟩
    · rintro ⟨t, hleads, hwords⟩
      cases hleads with
      | pending h =>
        rw [hleading] at h
        cases h
      | @declared d name type _ hd hname htype =>
        refine ⟨(name.text (p.file file).text, type.text (p.file file).text), ⟨d, hd, ?_⟩,
          rfl, hwords⟩
        rw [firstParameter?_eq (hlist d (List.mem_of_mem_head? hd)), hname, htype]
        rfl

/-- A parameter is declared first in a list where nothing is inserted. -/
structure DeclaredFirst (e : Edits) (file : FileId) (list d n t : Node) : Prop where
  alone : e.leading? file (list.start + 1) = none
  first : list.codeChildren.head? = some d
  name : (d.childrenIn .name).head? = some n
  type : d.child? .type = some t

theorem leadsWith_of_declaredFirst {d n t : Node} (h : e.DeclaredFirst file list d n t) :
    e.LeadsWith p file list read name type ↔ n.text (p.file file).text = name ∧
      Blank.words (read d t).toList = Blank.words type.toList := by
  constructor
  · rintro ⟨t', hleads, hwords⟩
    cases hleads with
    | pending hpending =>
      rw [h.alone] at hpending
      cases hpending
    | declared _ hd hn ht =>
      cases h.first.symm.trans hd
      cases h.name.symm.trans hn
      cases h.type.symm.trans ht
      exact ⟨rfl, hwords⟩
  · rintro ⟨rfl, hwords⟩
    exact ⟨_, .declared h.alone h.first h.name h.type, hwords⟩

/-- Types that were inserted are compared as they are. -/
theorem leadsWith_congr {read' : Node → Node → String}
    (h : ∀ d n t, ¬ e.DeclaredFirst file list d n t) :
    e.LeadsWith p file list read name type → e.LeadsWith p file list read' name type := by
  rintro ⟨t, hleads, hwords⟩
  cases hleads with
  | pending hpending => exact ⟨t, .pending hpending, hwords⟩
  | declared halone hd hn ht => exact absurd ⟨halone, hd, hn, ht⟩ (h _ _ _)

/-- A variadic parameter is declared first, with a name and with a type that is written like the
given one or is the given one. -/
def Misread (e : Edits) (p : Program) (file : FileId) (list : Node) (name type : String) : Prop :=
  ∃ d n t, e.DeclaredFirst file list d n t ∧ d.kind = .variadicParameterDeclaration ∧
    n.text (p.file file).text = name ∧
    (Blank.words (t.text (p.file file).text).toList = Blank.words type.toList ∨
      Blank.words ("..." ++ t.text (p.file file).text).toList = Blank.words type.toList)

theorem leads_agree_iff :
    (e.LeadsAsWritten p file list name type ↔ e.LeadsInGo p file list name type) ↔
    ¬ e.Misread p file list name type := by
  by_cases hex : ∃ d n t, e.DeclaredFirst file list d n t
  · obtain ⟨d, n, t, hfirst⟩ := hex
    have hmisread : e.Misread p file list name type ↔ d.kind = .variadicParameterDeclaration ∧
        n.text (p.file file).text = name ∧
        (Blank.words (t.text (p.file file).text).toList = Blank.words type.toList ∨
          Blank.words ("..." ++ t.text (p.file file).text).toList = Blank.words type.toList) := by
      constructor
      · rintro ⟨d', n', t', hfirst', h⟩
        cases hfirst.first.symm.trans hfirst'.first
        cases hfirst.name.symm.trans hfirst'.name
        cases hfirst.type.symm.trans hfirst'.type
        exact h
      · exact fun h => ⟨d, n, t, hfirst, h⟩
    rw [LeadsAsWritten, LeadsInGo, leadsWith_of_declaredFirst hfirst,
      leadsWith_of_declaredFirst hfirst, hmisread]
    by_cases hk : d.kind = .variadicParameterDeclaration
    · have hne := Blank.words_dots_ne (t.text (p.file file).text).toList
      rw [← String.toList_append] at hne
      rw [Node.goType, if_pos hk]
      -- the words cannot be those of the type both with and without the dots
      grind
    · rw [Node.goType, if_neg hk]
      simp [hk]
  · have hnone : ∀ d n t, ¬ e.DeclaredFirst file list d n t := fun d n t h => hex ⟨d, n, t, h⟩
    refine iff_of_true ⟨leadsWith_congr hnone, leadsWith_congr hnone⟩ ?_
    rintro ⟨d, n, t, hfirst, -⟩
    exact hnone d n t hfirst

theorem addParameter_eq (hnode : a.node? = some list) (hk : list.kind = .parameterList) (e : Edits)
    (name type : String) (skip : Bool) :
    e.addParameter p a name type skip = .ok (e.putParameter p a.file list name type skip) := by
  have hexpect : a.expectKind p .parameterList = .ok list := by
    rw [Address.expectKind, hnode]
    exact if_pos hk
  rw [addParameter, hexpect]
  rfl

theorem leading?_push_self (e : Edits) (file : FileId) (i : Insertion) :
    (e.push file i).leading? file i.offset = some i.inserted := by
  rw [leading?_eq, insertionsAt_push_self, List.getLast?_concat]
  rfl

/-- A request to add a parameter is skipped, without any change, just if the first parameter has its
name and its type as it is written. Any other request inserts the parameter, and is skipped from
then on. What is compared is the type of the first parameter in Go, but for variadic parameters. -/
theorem addParameter_skips (hloaded : p.Loaded) (ha : a.In p) (hnode : a.node? = some list)
    (hk : list.kind = .parameterList) (e : Edits) (name type : String) :
    (e.LeadsAsWritten p a.file list name type →
      e.addParameter p a name type true = .ok (.alreadyPresent, e)) ∧
    (¬ e.LeadsAsWritten p a.file list name type → ∃ i, i.offset = list.start + 1 ∧
      i.inserted = .parameter name type ∧
      e.addParameter p a name type true = .ok (.applied, e.push a.file i) ∧
      (e.push a.file i).addParameter p a name type true = .ok (.alreadyPresent, e.push a.file i)) ∧
    ((e.LeadsAsWritten p a.file list name type ↔ e.LeadsInGo p a.file list name type) ↔
      ¬ e.Misread p a.file list name type) := by
  have hp := hloaded.wellFormed
  have hhas := ha.hasNode hp hnode (by rw [hk]; rfl) (by rw [hk]; exact nofun)
  have hlist : ∀ c ∈ list.codeChildren,
      c.kind = .parameterDeclaration ∨ c.kind = .variadicParameterDeclaration :=
    fun c hc => Grammar.parameter_of_list (hhas.made hp).self hk hc
  have hskips : ∀ e : Edits, e.LeadsAsWritten p a.file list name type →
      e.addParameter p a name type true = .ok (.alreadyPresent, e) := by
    intro e hleads
    rw [addParameter_eq hnode hk, putParameter]
    dsimp only
    rw [(hasParameter_iff hlist).mpr hleads]
    rfl
  refine ⟨hskips e, fun hnot => ?_, leads_agree_iff⟩
  have hhasnt : e.hasParameter (p.file a.file).text a.file (list.start + 1)
      list.codeChildren name type = false := by
    rw [← Bool.not_eq_true, hasParameter_iff hlist]
    exact hnot
  obtain ⟨text, happlied⟩ : ∃ text, e.addParameter p a name type true =
      .ok (.applied, e.push a.file ⟨list.start + 1, .parameter name type, text⟩) := by
    rw [addParameter_eq hnode hk, putParameter]
    dsimp only
    rw [hhasnt]
    exact ⟨_, rfl⟩
  exact ⟨_, rfl, rfl, happlied, hskips _ ⟨type, .pending (leading?_push_self e a.file _), rfl⟩⟩

def variadicSources : List (Path × String) :=
  [(⟨"a.go"⟩, "package p\n\nfunc f(xs ...int) \x7b\x7d\n")]

/-- The parameter is taken for one of the type of its elements. -/
theorem addParameter_skips_variadic :
    ∃ p a list, Program.ofSources (fun _ => none) variadicSources = .ok p ∧
    a.In p ∧ a.node? = some list ∧ list.kind = .parameterList ∧
    empty.addParameter p a "xs" "int" true = .ok (.alreadyPresent, empty) ∧
    ¬ empty.LeadsInGo p a.file list "xs" "int" ∧
    (∃ e, empty.addParameter p a "xs" "...int" true = .ok (.applied, e)) ∧
    empty.LeadsInGo p a.file list "xs" "...int" := by
  have hchecked : (Program.ofSources (fun _ => none) variadicSources).toOption.any (fun p =>
      decide (0 < p.files.length) && (p.file 0).tree.everything.any fun list =>
        decide (list.kind = .parameterList) && list.codeChildren.head?.any fun d =>
          decide (d.kind = .variadicParameterDeclaration) &&
            ((d.childrenIn .name).head?).any fun n =>
            n.text (p.file 0).text == "xs" && (d.child? .type).any fun t =>
              t.text (p.file 0).text == "int") = true := by decide +kernel
  obtain ⟨p, hp, hchecked⟩ := any_toOption.mp hchecked
  simp only [List.any_eq_true, Bool.and_eq_true, decide_eq_true_eq, beq_iff_eq, Option.any_eq_true]
    at hchecked
  obtain ⟨hfiles, list, hlist, hk, d, hd, hvariadic, n, hn, hname, t, ht, htype⟩ := hchecked
  have ha : (Address.ofNode 0 list []).In p := ⟨hfiles, fun m hm => by cases hm; exact hlist⟩
  have hfirst : empty.DeclaredFirst 0 list d n t := ⟨rfl, hd, hn, ht⟩
  have hgo : ∀ type, empty.LeadsInGo p 0 list "xs" type ↔
      Blank.words "...int".toList = Blank.words type.toList := by
    intro type
    rw [LeadsInGo, leadsWith_of_declaredFirst hfirst, Node.goType, if_pos hvariadic, htype]
    exact and_iff_right hname
  have hwritten : ∀ type, empty.LeadsAsWritten p 0 list "xs" type ↔
      Blank.words "int".toList = Blank.words type.toList := by
    intro type
    rw [LeadsAsWritten, leadsWith_of_declaredFirst hfirst, htype]
    exact and_iff_right hname
  have hint :=
    (addParameter_skips (.sources hp) ha rfl hk empty "xs" "int").1 ((hwritten _).mpr rfl)
  obtain ⟨i, -, -, hdots, -⟩ := (addParameter_skips (.sources hp) ha rfl hk empty "xs" "...int").2.1
    (mt (hwritten _).mp (by decide +kernel))
  exact ⟨p, _, list, hp, ha, rfl, hk, hint, mt (hgo _).mp (by decide +kernel), ⟨_, hdots⟩,
    (hgo _).mpr rfl⟩

end Edits

end ParamThreading
