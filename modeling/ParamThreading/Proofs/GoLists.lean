import ParamThreading.Proofs.LoadedProgram

/-!
# Lists in parentheses

That a node is made by a form of the grammar does not tell which tokens it was read from. Here the
tokens are kept, so that a parameter list or an argument list is known to end with a parenthesis of
its own, behind all that stands in it.

* `Cursor.In`  a place in a text at which a rule can be tried;
* `Rule.Formed`  a node with the place where its form was tried;
* `Rule.Reads.formed`  all nodes of what is read are formed;
* `Grammar.reads_list`  what the forms of lists read;
* `ListShape`, `Grammar.listShape`  lists between their parentheses.
-/

namespace ParamThreading

/-! ## places in a text -/

/-- A place in a text, with the node that is held there. -/
structure Cursor.In (c : Cursor) (tokens : List Token) (hi : Nat) (h : Option Node) : Prop where
  suffix : c.ts <:+ tokens
  valid : c.Valid hi
  held : ∀ x, h = some x → HeldFits c x

namespace Terminal

theorem spell_end {cs : List Char} {stop : Option Nat} {ts rest : List Token} {b lo : Nat}
    (h : spell cs stop ts = some (b, rest)) (hstop : ∀ a, stop = some a → a = lo) :
    ∃ c, ts = c ++ rest ∧ b = Token.endOf lo c := by
  induction cs generalizing ts stop lo with
  | nil =>
    cases stop with
    | none => cases h
    | some a =>
      cases h
      exact ⟨[], rfl, hstop _ rfl⟩
  | cons c cs ih =>
    cases ts with
    | nil => cases h
    | cons t ts =>
      simp only [spell] at h
      split at h
      · obtain ⟨c, rfl, hb⟩ := ih h (fun a ha => (Option.some.inj ha).symm)
        refine ⟨t :: c, rfl, ?_⟩
        rw [Token.endOf_cons, hb]
      · cases h

theorem take_end {t : Terminal} {ts rest : List Token} {a b : Nat} (lo : Nat)
    (h : t.take ts = some (a, b, rest)) : ∃ c, ts = c ++ rest ∧ b = Token.endOf lo c := by
  cases ts with
  | nil => cases h
  | cons first ts =>
    have hone : ∀ {p : Prop} [Decidable p], (if p then some (first.start, first.stop, ts) else none)
        = some (a, b, rest) → ∃ c, first :: ts = c ++ rest ∧ b = Token.endOf lo c := by
      intro p _ hx
      obtain ⟨-, e⟩ := Option.ite_none_right_eq_some.mp hx
      cases e
      exact ⟨[first], rfl, rfl⟩
    cases t with
    | word | keyword | cls => exact hone h
    | mark s longer =>
      simp only [take] at h
      split at h
      · cases h
      · obtain ⟨_, hs, e⟩ := Option.map_eq_some_iff.mp h
        cases e
        exact spell_end hs fun _ hnone => by cases hnone

theorem take_suffix {t : Terminal} {ts rest : List Token} {a b : Nat}
    (h : t.take ts = some (a, b, rest)) : rest <:+ ts := by
  obtain ⟨c, rfl, -⟩ := take_end 0 h
  exact List.suffix_append ..

end Terminal

namespace Rule

variable {σ : Type} {grammar : σ → Rule σ} {held bare : σ → Bool} {tokens : List Token} {hi : Nat}

theorem Reads.suffix {r : Rule σ} {h : Option Node} {ts rest : List Token} {xs : List Node}
    (hread : Reads grammar r h ts xs rest) : rest <:+ ts := by
  induction hread with
  | token ht | leaf ht => exact Terminal.take_suffix ht
  | seq _ _ ih₁ ih₂ | more _ _ ih₁ ih₂ | hold _ _ ih₁ ih₂ | extend _ _ ih₁ ih₂ =>
    exact ih₂.trans ih₁
  | ref _ ih | first _ ih | second _ ih | wide _ ih | node _ ih | label _ ih => exact ih
  | _ => exact List.suffix_refl _

/-- Reading leads from one place to another. -/
theorem Reads.next (hg : LaidOut grammar held) {r : Rule σ} {h : Option Node}
    {ts rest : List Token} {xs : List Node} {lo : Nat} (hread : Reads grammar r h ts xs rest)
    (hr : r.isLaidOut held = true) (hc : Cursor.In ⟨lo, ts⟩ tokens hi h) :
    ∃ lo', Cursor.In ⟨lo', rest⟩ tokens hi h ∧
      Fits hi (.low hi ⟨lo, ts⟩ h (r.usesHeld held)) ⟨lo, ts⟩ ⟨lo', rest⟩
        r.isSoft r.isFilled xs := by
  obtain ⟨lo', hfit⟩ := hread.laid hg hr hc.valid hc.held
  exact ⟨lo', ⟨hread.suffix.trans hc.suffix, hfit.valid, fun x hx => (hc.held x hx).mono hfit.le⟩,
    hfit⟩

theorem Reads.next_held (hg : LaidOut grammar held) {r : Rule σ} {h : Option Node}
    {ts rest : List Token} {x : Node} {lo : Nat} (hread : Reads grammar r h ts [x] rest)
    (hr : r.isLaidOut held = true) (hsoft : r.isSoft = true) (hfilled : r.isFilled = true)
    (hc : Cursor.In ⟨lo, ts⟩ tokens hi h) : ∃ lo', Cursor.In ⟨lo', rest⟩ tokens hi (some x) := by
  obtain ⟨lo', hc', hfit⟩ := hread.next hg hr hc
  rw [hsoft, hfilled] at hfit
  obtain ⟨hheld, -⟩ := hfit.held (Bounds.low_le_atCursor hc.valid hc.held _)
  exact ⟨lo', hc'.suffix, hc'.valid, fun y hy => by cases hy; exact hheld⟩

/-- A node as it stands in a text: a leaf, or a node that covers what the rule of a form read at a
place of the text. -/
inductive Formed (grammar : σ → Rule σ) (held : σ → Bool) (tokens : List Token) (hi : Nat)
    (n : Node) : Prop where
  | leaf : n.kind = .token ∨ (∃ s, n.kind ∈ (grammar s).leaves) → Formed grammar held tokens hi n
  | form {s : σ} {r : Rule σ} {h : Option Node} {lo : Nat} {ts rest : List Token} :
      (n.kind, r) ∈ (grammar s).forms → r.isLaidOut held = true → Cursor.In ⟨lo, ts⟩ tokens hi h →
      Reads grammar r h ts n.children rest → n.start = (Node.spanning n.kind n.children).start →
      n.stop = (Node.spanning n.kind n.children).stop → Formed grammar held tokens hi n

theorem Formed.withRole {n : Node} {role : Role} (h : Formed grammar held tokens hi n) :
    Formed grammar held tokens hi (n.withRole role) := by
  cases n with
  | mk k r a b cs =>
    cases h with
    | leaf hk => exact .leaf hk
    | form hform hr hc hread hstart hstop => exact .form hform hr hc hread hstart hstop

/-- Every node of what is read in a text is formed there. -/
theorem Reads.formed (hg : LaidOut grammar held) (hb : Bare grammar bare) {r : Rule σ}
    {h : Option Node} {ts rest : List Token} {xs : List Node} {lo : Nat}
    (hread : Reads grammar r h ts xs rest) (hr : r.isLaidOut held = true)
    (hknown : Known grammar bare (fun _ => True) r) (hc : Cursor.In ⟨lo, ts⟩ tokens hi h)
    (hh : ∀ x, h = some x → x.All (Formed grammar held tokens hi)) :
    ∀ x ∈ xs, x.All (Formed grammar held tokens hi) := by
  induction hread generalizing lo with
  | empty | onLine | finish | none | ahead | notAhead => exact nofun
  | token | lineBreak => exact Node.forall_all_leaf (.leaf (.inl rfl))
  | leaf =>
    obtain ⟨s, -, hs⟩ := hknown.leaves _ (List.mem_singleton_self _)
    exact Node.forall_all_leaf (.leaf (.inr ⟨s, hs⟩))
  | @ref _ _ _ _ s _ ih =>
    exact ih (hg.isLaidOut s) ⟨fun p hp => ⟨s, trivial, hp⟩, fun k hk => ⟨s, trivial, hk⟩,
      fun _ _ => trivial, hb.holdsBare s⟩ hc hh
  | seq hread _ ih₁ ih₂ =>
    simp only [isLaidOut, Bool.and_eq_true] at hr
    obtain ⟨lo', hc', -⟩ := hread.next hg hr.1.1 hc
    intro x hx
    rcases List.mem_append.mp hx with hx | hx
    · exact ih₁ hr.1.1 hknown.seq.1 hc hh x hx
    · exact ih₂ hr.1.2 hknown.seq.2 hc' hh x hx
  | first _ ih => exact ih (Bool.and_eq_true_iff.mp hr).1 hknown.alt.1 hc hh
  | second _ ih => exact ih (Bool.and_eq_true_iff.mp hr).2 hknown.alt.2 hc hh
  | more hread _ ih₁ ih₂ =>
    have hr₁ := (Bool.and_eq_true_iff.mp hr).1
    obtain ⟨lo', hc', -⟩ := hread.next hg hr₁ hc
    intro x hx
    rcases List.mem_append.mp hx with hx | hx
    · exact ih₁ hr₁ ⟨hknown.forms, hknown.leaves, hknown.refs, hknown.holdsBare⟩ hc hh x hx
    · exact ih₂ hr hknown hc' hh x hx
  | wide _ ih => exact ih hr ⟨hknown.forms, hknown.leaves, hknown.refs, hknown.holdsBare⟩ hc hh
  | @node h ts rest xs k r hread ih =>
    simp only [isLaidOut, Bool.and_eq_true] at hr
    obtain ⟨s, -, hform⟩ := hknown.node.2
    intro x hx
    rw [List.mem_singleton.mp hx]
    exact Node.all_iff.mpr ⟨.form hform hr.1.1 hc hread rfl rfl, ih hr.1.1 hknown.node.1 hc hh⟩
  | label _ ih =>
    exact forall_all_giveRole Formed.withRole
      (ih hr ⟨hknown.forms, hknown.leaves, hknown.refs, hknown.holdsBare⟩ hc hh)
  | @hold _ _ _ _ x _ _ _ hread _ ih₁ ih₂ =>
    simp only [isLaidOut, Bool.and_eq_true] at hr
    obtain ⟨⟨⟨hbase, hsoft⟩, hfilled⟩, hbody⟩ := hr
    obtain ⟨lo', hc'⟩ := hread.next_held hg hbase hsoft hfilled hc
    refine ih₂ hbody hknown.hold.2.1 hc' fun y hy => ?_
    cases hy
    exact ih₁ hbase hknown.hold.1 hc hh x (List.mem_singleton_self x)
  | @held ts x | @extended ts x step =>
    intro y hy
    rw [List.mem_singleton.mp hy]
    exact hh x rfl
  | @extend _ _ _ _ x _ _ hread _ ih₁ ih₂ =>
    obtain ⟨hsteps, hfilled⟩ := Bool.and_eq_true_iff.mp hr
    obtain ⟨hstep, hsoft⟩ := Bool.and_eq_true_iff.mp hsteps
    obtain ⟨lo', hc'⟩ := hread.next_held hg hstep hsoft hfilled hc
    refine ih₂ hr hknown hc' fun y hy => ?_
    cases hy
    exact ih₁ hstep hknown.extend.1 hc hh x (List.mem_singleton_self x)

end Rule

/-! ## lists of Go -/

def Kind.isList : Kind → Bool
  | .argumentList | .parameterList => true
  | _ => false

namespace Grammar

open Rule

theorem parse_formed {text : String} {root : Node} (h : parse text = some root) :
    ∀ c ∈ root.children, c.All (Formed rule putsHeld (Token.scan text) text.utf8ByteSize) := by
  unfold parse treeOf at h
  split at h
  case h_2 => cases h
  case h_1 items last hrun =>
    split at h
    case isFalse => cases h
    cases h
    have hstart : Cursor.In ⟨0, Token.scan text⟩ (Token.scan text) text.utf8ByteSize none :=
      ⟨List.suffix_refl _, Token.scan_chained text, nofun⟩
    exact (reads_of_run hrun).formed laidOut bare sourceFile_isLaidOut known_sourceFile hstart nofun

/-- What stands between the parentheses of the lists that a symbol makes. -/
def listBody : Symbol → Option Production
  | .parameters => some (.seq (opt (list (.ref .parameter))) (opt (mark ",")))
  | .arguments => some (opt (.seq
      (list (.hold inner (alts [form .variadicArgument [.held, mark "..."], .held])))
        (opt (mark ","))))
  | .typedArguments => some
      (opt (seqs [.ref (.type false), .many (.seq (mark ",") inner), opt (mark ",")]))
  | _ => none

/-- Lists come from these symbols only, and are no leaves. -/
def listsPass (s : Symbol) : Bool :=
  ((listBody s).isSome || (rule s).forms.all (!·.1.isList)) && (rule s).leaves.all (!·.isList)

theorem listsPass_all (s : Symbol) : listsPass s = true := by
  refine forall_symbol (by decide +kernel) (fun f level => ?_) s
  obtain ⟨line, block, send, guard⟩ := f
  cases line <;> rfl

theorem listBody_isLaidOut {s : Symbol} {body : Production} (h : listBody s = some body) :
    body.isLaidOut putsHeld = true ∧ body.usesHeld putsHeld = false := by
  cases s with
  | parameters | arguments | typedArguments =>
    cases h
    exact ⟨by decide, by decide⟩
  | _ => cases h

section
variable {h : Option Node} {ts rest : List Token} {xs : List Node}

theorem reads_between {body : Production}
    (hread : Reads rule (seqs [mark "(", body, mark ")"]) h ts xs rest) :
    ∃ first mid last ts₁ ts₂, xs = first :: (mid ++ [last]) ∧
      Reads rule (mark "(") h ts [first] ts₁ ∧
      Reads rule body h ts₁ mid ts₂ ∧ Reads rule (mark ")") h ts₂ [last] rest := by
  obtain ⟨_, _, ts₁, rfl, hopen, h₁⟩ := reads_seq hread
  obtain ⟨_, _, ts₂, rfl, hbody, hclose⟩ := reads_seq h₁
  obtain ⟨first, rfl, -⟩ := reads_token hopen
  obtain ⟨last, rfl, -⟩ := reads_token hclose
  exact ⟨first, _, last, ts₁, ts₂, rfl, hopen, hbody, hclose⟩

/-- The forms of lists read an opening parenthesis, what stands in the list, and a closing one. -/
theorem reads_list {s : Symbol} {k : Kind} {r : Production} (hform : (k, r) ∈ (rule s).forms)
    (hk : k.isList = true) (hread : Reads rule r h ts xs rest) :
    ∃ body first mid last ts₁ ts₂, listBody s = some body ∧ xs = first :: (mid ++ [last]) ∧
      Reads rule (mark "(") h ts [first] ts₁ ∧ Reads rule body h ts₁ mid ts₂ ∧
      Reads rule (mark ")") h ts₂ [last] rest := by
  have hpass := listsPass_all s
  simp only [listsPass, Bool.and_eq_true, Bool.or_eq_true, List.all_eq_true, Bool.not_eq_true']
    at hpass
  obtain ⟨body, hbody⟩ : ∃ body, listBody s = some body := by
    rcases hpass.1 with hsome | hnone
    · exact Option.isSome_iff_exists.mp hsome
    · rw [hnone _ hform] at hk
      cases hk
  suffices hbetween : Reads rule (seqs [mark "(", body, mark ")"]) h ts xs rest by
    obtain ⟨first, mid, last, ts₁, ts₂, hparts⟩ := reads_between hbetween
    exact ⟨body, first, mid, last, ts₁, ts₂, hbody, hparts⟩
  have hmem : r ∈ ((rule s).forms.filter (·.1.isList)).map (·.2) :=
    List.mem_map.mpr ⟨(k, r), List.mem_filter.mpr ⟨hform, hk⟩, rfl⟩
  cases s with
  | parameters =>
    cases hbody
    cases List.mem_singleton.mp hmem
    -- the optional comma is part of the body
    obtain ⟨_, _, _, rfl, hopen, h₁⟩ := reads_seq hread
    obtain ⟨items, _, _, rfl, hitems, h₂⟩ := reads_seq h₁
    obtain ⟨comma, _, _, rfl, hcomma, hclose⟩ := reads_seq h₂
    rw [← List.append_assoc items comma]
    exact .seq hopen (.seq (.seq hitems hcomma) hclose)
  | arguments | typedArguments =>
    cases hbody
    cases List.mem_singleton.mp hmem
    exact hread
  | _ => cases hbody

end

end Grammar

/-- A list between its parentheses. -/
structure ListShape (n first last : Node) (mid : List Node) : Prop where
  children : n.children = first :: (mid ++ [last])
  opened : first.kind = .token ∧ n.start = first.start ∧ first.start < first.stop
  closed : last.kind = .token ∧ n.stop = last.stop ∧ last.start < last.stop
  apart : first.stop ≤ last.start
  behind : ∀ c ∈ mid, c.kind.isNamed = true → first.stop ≤ c.start
  before : ∀ c ∈ mid, c.stop ≤ last.start

namespace ListShape

variable {n first last c : Node} {mid : List Node}

theorem mem_mid (h : ListShape n first last mid) (hc : c ∈ n.codeChildren) : c ∈ mid := by
  obtain ⟨hmem, hnamed⟩ := List.mem_filter.mp hc
  rw [h.children] at hmem
  rcases List.mem_cons.mp hmem with rfl | hmem
  · rw [h.opened.1] at hnamed
    cases hnamed
  · rcases List.mem_append.mp hmem with hmem | hmem
    · exact hmem
    · rw [List.mem_singleton.mp hmem, h.closed.1] at hnamed
      cases hnamed

theorem between (h : ListShape n first last mid) (hc : c ∈ n.codeChildren) :
    n.start < c.start ∧ c.stop < n.stop := by
  have hmid := h.mem_mid hc
  have h₁ := h.behind c hmid (List.mem_filter.mp hc).2
  have h₂ := h.before c hmid
  obtain ⟨-, hstart, hfirst⟩ := h.opened
  obtain ⟨-, hstop, hlast⟩ := h.closed
  omega

theorem two_le (h : ListShape n first last mid) : n.start + 2 ≤ n.stop := by
  have hapart := h.apart
  obtain ⟨-, hstart, hfirst⟩ := h.opened
  obtain ⟨-, hstop, hlast⟩ := h.closed
  omega

end ListShape

namespace Grammar

open Rule

/-- A mark begins with the next token, and the reading goes on where it ends. -/
theorem reads_mark_place {m : String} {h : Option Node} {ts rest tokens : List Token} {x : Node}
    {lo hi : Nat} (hread : Reads rule (mark m) h ts [x] rest)
    (hc : Cursor.In ⟨lo, ts⟩ tokens hi h) :
    x.kind = .token ∧ x.start = Cursor.entry ⟨lo, ts⟩ hi ∧ x.start < x.stop ∧
      Cursor.In ⟨x.stop, rest⟩ tokens hi h := by
  cases hread with
  | token ht =>
    obtain ⟨⟨t, ts', rfl, rfl⟩, -, -, hlt, hrest⟩ := Terminal.take_chained ht hc.valid
    have hfit := Fits.terminal hc.valid ht .token rfl
    exact ⟨rfl, rfl, hlt rfl, (Terminal.take_suffix ht).trans hc.suffix, hrest,
      fun y hy => (hc.held y hy).mono hfit.le⟩

theorem isList_of_leaf {k : Kind} (h : k = .token ∨ ∃ s, k ∈ (rule s).leaves) :
    k.isList = false := by
  rcases h with rfl | ⟨s, hleaf⟩
  · rfl
  · have hpass := listsPass_all s
    simp only [listsPass, Bool.and_eq_true, List.all_eq_true, Bool.not_eq_true'] at hpass
    exact hpass.2 _ hleaf

theorem listShape {tokens : List Token} {hi : Nat} {n : Node}
    (hn : Formed rule putsHeld tokens hi n)
    (hk : n.kind.isList = true) : ∃ first last mid, ListShape n first last mid := by
  cases hn with
  | leaf hleaf =>
    rw [isList_of_leaf hleaf] at hk
    cases hk
  | form hform hr hc hread hstart hstop =>
    obtain ⟨body, first, mid, last, ts₁, ts₂, hbody, hxs, hopen, hmid, hclose⟩ :=
      reads_list hform hk hread
    obtain ⟨hlaid, huses⟩ := listBody_isLaidOut hbody
    obtain ⟨hfirst, -, hlt, hc₁⟩ := reads_mark_place hopen hc
    obtain ⟨lo, hc₂, hfit⟩ := hmid.next laidOut hlaid hc₁
    obtain ⟨hlast, hentry, hlt', -⟩ := reads_mark_place hclose hc₂
    -- what is read ends before the next token, which is the closing parenthesis
    have hceiling : Cursor.ceiling ⟨lo, ts₂⟩ ≤ last.start := hentry ▸ hc₂.valid.ceiling_le_entry
    have hle : first.stop ≤ Cursor.entry ⟨first.stop, ts₁⟩ hi := by
      have h₁ := hc₁.valid.lo_le_floor
      have h₂ := @Cursor.floor_le_ceiling ⟨first.stop, ts₁⟩
      exact (h₁.trans h₂).trans hc₁.valid.ceiling_le_entry
    rw [hxs] at hstart hstop
    rw [huses] at hfit
    refine ⟨first, last, mid, hxs, ⟨hfirst, hstart, hlt⟩, ⟨hlast, ?_, hlt'⟩, ?_,
      fun c hmem hnamed => ?_, fun c hmem => ?_⟩
    · rw [hstop, ← List.cons_append]
      show ((first :: mid ++ [last]).getLast?.map Node.stop).getD 0 = last.stop
      rw [List.getLast?_concat]
      rfl
    · exact (hle.trans hfit.le.entry).trans (Nat.le_of_eq hentry.symm)
    · exact hle.trans ((hfit.laid.within c hmem).2.2.2.2.2 hnamed)
    · exact ((hfit.laid.within c hmem).2.2.2.2.1).trans hceiling

end Grammar

end ParamThreading
