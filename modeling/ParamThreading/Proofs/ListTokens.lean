import ParamThreading.Proofs.GoLists

/-!
# The tokens around the elements of a list

A node may end behind its last token, at the line break that ends a statement; the elements of a
list do not, and they are followed by a comma or the closing parenthesis.

* `Rule.isFirm`, `Rule.Reads.firm_end`  rules whose nodes end where the last token of theirs ends;
* `Rule.isNoun`, `Rule.Reads.noun_single`  rules that yield one named node;
* `Grammar.exists_opening`, `Grammar.exists_behind_first`  the tokens of a list.
-/

namespace ParamThreading

theorem Token.endOf_append (pos : Nat) (ts us : List Token) :
    endOf pos (ts ++ us) = endOf (endOf pos ts) us := by
  unfold endOf
  rw [List.getLast?_append]
  cases us.getLast? <;> rfl

namespace Rule

variable {σ : Type} {grammar : σ → Rule σ} {held firm noun : σ → Bool} {r : Rule σ}
    {h : Option Node}
  {ts rest : List Token} {xs : List Node}

/-! ## where nodes end -/

/-- The last node ends with the last token that is read, given that it is so for some symbols. -/
def isFirm (firm : σ → Bool) : Rule σ → Bool
  | .lineEnd => false
  | .ref s => firm s
  | .seq a b => isFirm firm b && (isFilled b || isFirm firm a)
  | .alt a b => isFirm firm a && isFirm firm b
  | .hold a b => isFirm firm a && isFirm firm b && isFilled b
  | .many r | .wide _ r | .label _ r | .node _ r | .extend r => isFirm firm r
  | _ => true

/-- Nothing was read, or the last node ends with the last token. -/
def Ended (lo : Nat) (c : List Token) (xs : List Node) : Prop :=
  (xs = [] ∧ c = []) ∨ xs.getLast?.map Node.stop = some (Token.endOf lo c)

theorem Reads.of_isSilent (hread : Reads grammar r h ts xs rest) (hr : r.isSilent = true) :
    xs = [] ∧ rest = ts := by
  cases hread with
  | empty | onLine | ahead | notAhead => exact ⟨rfl, rfl⟩
  | _ => cases hr

theorem Reads.ne_nil (hg : LaidOut grammar held) (hread : Reads grammar r h ts xs rest)
    (hr : r.isFilled = true) : xs ≠ [] := by
  induction hread with
  | token | leaf | node | held | extended => exact List.cons_ne_nil _ _
  | @ref _ _ _ _ s _ ih => exact ih (hg.isFilled s)
  | seq _ _ ih₁ ih₂ =>
    rw [isFilled, Bool.or_eq_true] at hr
    rcases hr with hr | hr
    · exact List.append_ne_nil_of_left_ne_nil (ih₁ hr) _
    · exact List.append_ne_nil_of_right_ne_nil _ (ih₂ hr)
  | first _ ih => exact ih (Bool.and_eq_true_iff.mp hr).1
  | second _ ih => exact ih (Bool.and_eq_true_iff.mp hr).2
  | wide _ ih => exact ih hr
  | label _ ih => exact fun hnil => ih hr (List.map_eq_nil_iff.mp hnil)
  | hold _ _ _ ih => exact ih hr
  | extend _ _ _ ih => exact ih hr
  | _ => cases hr

theorem getLast?_giveRole (role : Role) (xs : List Node) :
    (giveRole role xs).getLast?.map Node.stop = xs.getLast?.map Node.stop := by
  unfold giveRole
  rw [List.getLast?_map, Option.map_map]
  refine congrArg (Option.map · _) (funext fun x => ?_)
  simp only [Function.comp_apply]
  split
  · exact Node.stop_withRole ..
  · rfl

theorem Ended.append {lo : Nat} {c c' : List Token} {xs ys : List Node}
    (h : Ended lo c xs ∨ ys ≠ []) (h' : Ended (Token.endOf lo c) c' ys) :
    Ended lo (c ++ c') (xs ++ ys) := by
  rcases h' with ⟨rfl, rfl⟩ | hlast
  · rw [List.append_nil, List.append_nil]
    exact h.resolve_right fun hne => hne rfl
  · have hne : ys ≠ [] := by
      rintro rfl
      cases hlast
    refine .inr ?_
    rw [List.getLast?_append_of_ne_nil _ hne, hlast, Token.endOf_append]

theorem Ended.stop_eq {lo : Nat} {c : List Token} {x : Node} (h : Ended lo c [x]) :
    x.stop = Token.endOf lo c := by
  rcases h with ⟨hnil, -⟩ | hlast
  · cases hnil
  · exact Option.some.inj hlast

theorem Reads.firm_end (hg : LaidOut grammar held)
    (hf : ∀ s, firm s = true → (grammar s).isFirm firm = true) {lo : Nat}
    (hread : Reads grammar r h ts xs rest) (hr : r.isLaidOut held = true)
    (hfirm : r.isFirm firm = true) (hh : r.usesHeld held = true → ∀ x, h = some x → x.stop = lo) :
    ∃ c, ts = c ++ rest ∧ Ended lo c xs := by
  induction hread generalizing lo with
  | empty | onLine | none | ahead | notAhead => exact ⟨[], rfl, .inl ⟨rfl, rfl⟩⟩
  | lineBreak | finish => cases hfirm
  | token ht | leaf ht =>
    obtain ⟨c, rfl, rfl⟩ := Terminal.take_end lo ht
    exact ⟨c, rfl, .inr rfl⟩
  | @ref _ _ _ _ s _ ih => exact ih (hg.isLaidOut s) (hf s hfirm) fun hu => hh (hg.usesHeld s hu)
  | @seq h ts mid rest xs ys a b hread₁ hread₂ ih₁ ih₂ =>
    simp only [isLaidOut, Bool.and_eq_true, Bool.or_eq_true, Bool.not_eq_true'] at hr
    obtain ⟨⟨hr₁, hr₂⟩, hsilent⟩ := hr
    simp only [isFirm, Bool.and_eq_true, Bool.or_eq_true] at hfirm
    obtain ⟨hfirm₂, hlast⟩ := hfirm
    simp only [usesHeld, Bool.or_eq_true] at hh
    obtain ⟨c₁, rfl, hend₁⟩ : ∃ c₁, ts = c₁ ++ mid ∧ (Ended lo c₁ xs ∨ ys ≠ []) := by
      rcases hlast with hfilled | hfirm₁
      · obtain ⟨c₁, hc₁⟩ := hread₁.suffix
        exact ⟨c₁, hc₁.symm, .inr (hread₂.ne_nil hg hfilled)⟩
      · obtain ⟨c₁, hc₁, hend⟩ := ih₁ hr₁ hfirm₁ fun hu => hh (.inl hu)
        exact ⟨c₁, hc₁, .inl hend⟩
    have hh₂ : b.usesHeld held = true → ∀ x, h = some x → x.stop = Token.endOf lo c₁ := by
      intro hu
      -- the held node is put in place only where nothing was read before it
      rcases hsilent with hsilent | hnot
      · obtain rfl : c₁ = [] := by
          have hmid := (hread₁.of_isSilent hsilent).2
          exact List.append_left_eq_self.mp hmid.symm
        exact hh (.inr hu)
      · rw [hnot] at hu
        cases hu
    obtain ⟨c₂, rfl, hend₂⟩ := ih₂ hr₂ hfirm₂ hh₂
    exact ⟨c₁ ++ c₂, (List.append_assoc ..).symm, .append hend₁ hend₂⟩
  | first _ ih =>
    simp only [isLaidOut, isFirm, usesHeld, Bool.and_eq_true, Bool.or_eq_true] at hr hfirm hh
    exact ih hr.1 hfirm.1 fun hu => hh (.inl hu)
  | second _ ih =>
    simp only [isLaidOut, isFirm, usesHeld, Bool.and_eq_true, Bool.or_eq_true] at hr hfirm hh
    exact ih hr.2 hfirm.2 fun hu => hh (.inr hu)
  | @more h ts mid rest xs ys r _ _ ih₁ ih₂ =>
    have hnot : ¬r.usesHeld held = true := by
      simpa using (Bool.and_eq_true_iff.mp hr).2
    obtain ⟨c₁, rfl, hend₁⟩ := ih₁ (Bool.and_eq_true_iff.mp hr).1 hfirm fun hu => absurd hu hnot
    obtain ⟨c₂, rfl, hend₂⟩ := ih₂ hr hfirm fun hu => absurd hu hnot
    exact ⟨c₁ ++ c₂, (List.append_assoc ..).symm, .append (.inl hend₁) hend₂⟩
  | wide _ ih => exact ih hr hfirm hh
  | @node h ts rest xs k r hread ih =>
    simp only [isLaidOut, Bool.and_eq_true] at hr
    obtain ⟨c, rfl, hend⟩ := ih hr.1.1 hfirm hh
    have hlast := hend.resolve_left fun h => hread.ne_nil hg hr.2 h.1
    refine ⟨c, rfl, .inr ?_⟩
    show some ((xs.getLast?.map Node.stop).getD 0) = _
    rw [hlast]
    rfl
  | label _ ih =>
    obtain ⟨c, rfl, hend⟩ := ih hr hfirm hh
    refine ⟨c, rfl, ?_⟩
    rcases hend with ⟨rfl, rfl⟩ | hlast
    · exact .inl ⟨rfl, rfl⟩
    · exact .inr (by rw [← hlast, getLast?_giveRole])
  | @hold _ _ _ _ x _ _ _ hread₁ hread₂ ih₁ ih₂ =>
    simp only [isLaidOut, isFirm, Bool.and_eq_true] at hr hfirm
    obtain ⟨c₁, rfl, hend₁⟩ := ih₁ hr.1.1.1 hfirm.1.1 hh
    obtain ⟨c₂, rfl, hend₂⟩ := ih₂ hr.2 hfirm.1.2 fun _ y hy => by
      cases hy
      exact hend₁.stop_eq
    have hne := hread₂.ne_nil hg hfirm.2
    exact ⟨c₁ ++ c₂, (List.append_assoc ..).symm,
      .append (show Ended _ _ [] ∨ _ from .inr hne) hend₂⟩
  | held => exact ⟨[], rfl, .inr (congrArg some (hh rfl _ rfl))⟩
  | extended => exact ⟨[], rfl, .inr (congrArg some (hh rfl _ rfl))⟩
  | @extend _ _ _ _ x _ _ hread₁ hread₂ ih₁ ih₂ =>
    have hstep := (Bool.and_eq_true_iff.mp (Bool.and_eq_true_iff.mp hr).1).1
    obtain ⟨c₁, rfl, hend₁⟩ := ih₁ hstep hfirm fun _ => hh rfl
    obtain ⟨c₂, rfl, hend₂⟩ := ih₂ hr hfirm fun _ y hy => by
      cases hy
      exact hend₁.stop_eq
    have hne := hread₂.ne_nil hg rfl
    exact ⟨c₁ ++ c₂, (List.append_assoc ..).symm,
      .append (show Ended _ _ [] ∨ _ from .inr hne) hend₂⟩

/-! ## single nodes -/

/-- The rule yields one named node, given that it is so for some symbols. -/
def isNoun (noun : σ → Bool) : Rule σ → Bool
  | .leaf k _ | .node k _ => k.isNamed
  | .ref s => noun s
  | .seq a b => isSilent a && isNoun noun b || isNoun noun a && isSilent b
  | .alt a b | .hold a b => isNoun noun a && isNoun noun b
  | .wide _ r | .label _ r | .extend r => isNoun noun r
  | .held | .fail => true
  | _ => false

theorem Reads.noun_single (hg : LaidOut grammar held)
    (hn : ∀ s, noun s = true → (grammar s).isNoun noun = true)
    (hread : Reads grammar r h ts xs rest) (hr : r.isNoun noun = true)
    (hh : r.usesHeld held = true → ∀ x, h = some x → x.kind.isNamed = true) :
    ∃ x, xs = [x] ∧ x.kind.isNamed = true := by
  induction hread with
  | empty | onLine | none | ahead | notAhead | lineBreak | finish | token | more => cases hr
  | leaf => exact ⟨_, rfl, hr⟩
  | node => exact ⟨_, rfl, hr⟩
  | @ref _ _ _ _ s _ ih => exact ih (hn s hr) fun hu => hh (hg.usesHeld s hu)
  | @seq h ts mid rest xs ys a b hread₁ hread₂ ih₁ ih₂ =>
    simp only [isNoun, usesHeld, Bool.and_eq_true, Bool.or_eq_true] at hr hh
    rcases hr with ⟨hsilent, hr₂⟩ | ⟨hr₁, hsilent⟩
    · rw [(hread₁.of_isSilent hsilent).1]
      exact ih₂ hr₂ fun hu => hh (.inr hu)
    · rw [(hread₂.of_isSilent hsilent).1, List.append_nil]
      exact ih₁ hr₁ fun hu => hh (.inl hu)
  | first _ ih =>
    simp only [isNoun, usesHeld, Bool.and_eq_true, Bool.or_eq_true] at hr hh
    exact ih hr.1 fun hu => hh (.inl hu)
  | second _ ih =>
    simp only [isNoun, usesHeld, Bool.and_eq_true, Bool.or_eq_true] at hr hh
    exact ih hr.2 fun hu => hh (.inr hu)
  | wide _ ih => exact ih hr hh
  | label _ ih =>
    obtain ⟨x, rfl, hx⟩ := ih hr hh
    refine ⟨_, rfl, ?_⟩
    beta_reduce
    split
    · rwa [Node.kind_withRole]
    · exact hx
  | hold _ _ ih₁ ih₂ =>
    obtain ⟨hr₁, hr₂⟩ := Bool.and_eq_true_iff.mp hr
    obtain ⟨x, hx, hnamed⟩ := ih₁ hr₁ hh
    refine ih₂ hr₂ fun _ y hy => ?_
    cases hx
    cases hy
    exact hnamed
  | held | extended => exact ⟨_, rfl, hh rfl _ rfl⟩
  | extend _ _ ih₁ ih₂ =>
    obtain ⟨x, hx, hnamed⟩ := ih₁ hr fun _ => hh rfl
    refine ih₂ hr fun _ y hy => ?_
    cases hx
    cases hy
    exact hnamed

end Rule

namespace Grammar

open Rule

/-- The symbols that stand for one node that ends with its last token. -/
def isElement : Symbol → Bool
  | .statements | .defaultCase | .typeSwitchGuard => false
  | _ => true

def elementPass (s : Symbol) : Bool :=
  !isElement s || (rule s).isFirm isElement && (rule s).isNoun isElement

theorem elementPass_all (s : Symbol) : elementPass s = true := by
  refine forall_symbol (by decide +kernel) (fun f level => ?_) s
  obtain ⟨line, block, send, guard⟩ := f
  cases line <;> rfl

theorem isFirm_of_isElement {s : Symbol} (h : isElement s = true) :
    (rule s).isFirm isElement = true ∧ (rule s).isNoun isElement = true := by
  have hpass := elementPass_all s
  rw [elementPass, h] at hpass
  exact Bool.and_eq_true_iff.mp hpass

section
variable {h : Option Node} {ts rest tokens : List Token} {xs : List Node} {hi : Nat} {n : Node}

theorem reads_mark_token {m : String} {c : Char} (hm : m.toList = [c])
    (hread : Reads rule (mark m) h ts xs rest) :
    ∃ t, ts = t :: rest ∧ t.cls = .mark ∧ t.text = String.singleton c ∧
      xs = [.mk .token none t.start t.stop []] := by
  cases hread with
  | token ht =>
    cases ts with
    | nil => cases ht
    | cons t ts =>
      simp only [Terminal.take, hm, List.any_nil, Bool.false_eq_true, if_false, Terminal.spell,
        Option.all_none, Bool.and_true, Bool.and_eq_true, beq_iff_eq] at ht
      obtain ⟨_, hs, e⟩ := Option.map_eq_some_iff.mp ht
      obtain ⟨⟨hcls, htext⟩, hs⟩ := Option.ite_none_right_eq_some.mp hs
      cases hs
      cases e
      exact ⟨t, rfl, hcls, htext, rfl⟩

theorem reads_noun {r : Production} (hread : Reads rule r h ts xs rest)
    (huses : r.usesHeld putsHeld = false) (hnoun : r.isNoun isElement = true) :
    ∃ x, xs = [x] ∧ x.kind.isNamed = true := by
  refine hread.noun_single laidOut (fun s hs => (isFirm_of_isElement hs).2) hnoun fun hu => ?_
  rw [huses] at hu
  cases hu

/-- An element of a list: one named node that ends with its last token. -/
theorem reads_element {r : Production} {lo : Nat} (hread : Reads rule r h ts xs rest)
    (hlaid : r.isLaidOut putsHeld = true) (hfilled : r.isFilled = true)
    (huses : r.usesHeld putsHeld = false) (hfirm : r.isFirm isElement = true)
    (hnoun : r.isNoun isElement = true) (hc : Cursor.In ⟨lo, ts⟩ tokens hi h) :
    ∃ x c u, xs = [x] ∧ x.kind.isNamed = true ∧ ts = c ++ u :: rest ∧ x.stop = u.stop := by
  have hnot : ¬r.usesHeld putsHeld = true := by rw [huses]; exact Bool.false_ne_true
  obtain ⟨x, rfl, hnamed⟩ := reads_noun hread huses hnoun
  obtain ⟨c, hts, hend⟩ : ∃ c, ts = c ++ rest ∧ Ended lo c [x] :=
    hread.firm_end laidOut (fun s hs => (isFirm_of_isElement hs).1) hlaid hfirm fun hu =>
      absurd hu hnot
  -- the node covers some text behind the place, so at least one token was read
  obtain ⟨lo', -, hfit⟩ := hread.next laidOut hlaid hc
  rw [huses] at hfit
  obtain ⟨y, hy, hlt⟩ := hfit.filled hfilled
  obtain rfl := List.mem_singleton.mp hy
  have hentry : Cursor.entry ⟨lo, ts⟩ hi ≤ y.start := (hfit.laid.within y hy).2.2.2.2.2 hnamed
  have hlo : lo ≤ Cursor.entry ⟨lo, ts⟩ hi :=
    (hc.valid.lo_le_floor.trans Cursor.floor_le_ceiling).trans hc.valid.ceiling_le_entry
  have hstop := hend.stop_eq
  rcases List.eq_nil_or_concat' c with rfl | ⟨c, u, rfl⟩
  · have hnone : Token.endOf lo [] = lo := rfl
    omega
  · refine ⟨y, c, u, rfl, hnamed, by rw [hts, List.append_assoc]; rfl, ?_⟩
    rw [hstop, Token.endOf_append]
    rfl

theorem reads_behind {r : Production} {mid mid' : List Token} {ys zs : List Node}
    (hmany : Reads rule (.many (.seq (mark ",") r)) h ts xs mid)
    (hcomma : Reads rule (opt (mark ",")) h mid ys mid')
    (hclose : Reads rule (mark ")") h mid' zs rest) :
    ∃ t post, ts = t :: post ∧ t.cls = .mark ∧ (t.text = "," ∨ t.text = ")") := by
  cases hmany with
  | more hread =>
    obtain ⟨_, _, _, -, hread, -⟩ := reads_seq hread
    obtain ⟨t, rfl, hcls, htext, -⟩ := reads_mark_token (c := ',') rfl hread
    exact ⟨t, _, rfl, hcls, .inl htext⟩
  | none =>
    rcases reads_alt hcomma with hread | hread
    · obtain ⟨t, rfl, hcls, htext, -⟩ := reads_mark_token (c := ',') rfl hread
      exact ⟨t, _, rfl, hcls, .inl htext⟩
    · obtain ⟨-, rfl⟩ := hread.of_isSilent rfl
      obtain ⟨t, rfl, hcls, htext, -⟩ := reads_mark_token (c := ')') rfl hclose
      exact ⟨t, _, rfl, hcls, .inr htext⟩

theorem reads_no_element {s : Symbol} {body : Production} {mid zs : List Node} {ts' : List Token}
    (hbody : listBody s = some body) (hread : Reads rule body h ts mid ts')
    (hclose : Reads rule (mark ")") h ts' zs rest) (hnone : ∀ x ∈ mid, x.kind.isNamed = false) :
    ∃ t post, ts = t :: post ∧ t.cls = .mark ∧ (t.text = "," ∨ t.text = ")") := by
  have helement : ∀ {r : Production} {ts₁ ts₂ : List Token} {xs : List Node},
      Reads rule r h ts₁ xs ts₂ → r.usesHeld putsHeld = false → r.isNoun isElement = true →
      (∀ x ∈ xs, x ∈ mid) → False := by
    intro r ts₁ ts₂ xs hread huses hnoun hsub
    obtain ⟨x, rfl, hnamed⟩ := reads_noun hread huses hnoun
    rw [hnone x (hsub x (List.mem_singleton_self x))] at hnamed
    cases hnamed
  cases s with
  | parameters =>
    cases hbody
    obtain ⟨items, comma, ts₁, rfl, hitems, hcomma⟩ := reads_seq hread
    rcases reads_alt hitems with hlist | hempty
    · obtain ⟨_, _, _, rfl, helem, -⟩ := reads_seq hlist
      exact (helement helem (by decide) (by decide) fun x hx =>
        List.mem_append_left _ (List.mem_append_left _ hx)).elim
    · rw [(hempty.of_isSilent rfl).2] at hcomma
      have hmany : Reads rule (.many (.seq (mark ",") (.ref .parameter))) h ts [] ts := .none
      exact reads_behind hmany hcomma hclose
  | arguments =>
    cases hbody
    rcases reads_alt hread with hread | hempty
    · obtain ⟨_, _, _, rfl, hlist, -⟩ := reads_seq hread
      obtain ⟨_, _, _, rfl, helem, -⟩ := reads_seq hlist
      exact (helement helem (by decide) (by decide) fun x hx =>
        List.mem_append_left _ (List.mem_append_left _ hx)).elim
    · obtain ⟨rfl, rfl⟩ := hempty.of_isSilent rfl
      obtain ⟨t, rfl, hcls, htext, -⟩ := reads_mark_token (c := ')') rfl hclose
      exact ⟨t, _, rfl, hcls, .inr htext⟩
  | typedArguments =>
    cases hbody
    rcases reads_alt hread with hread | hempty
    · obtain ⟨_, _, _, rfl, helem, -⟩ := reads_seq hread
      exact (helement helem (by decide) (by decide) fun x hx => List.mem_append_left _ hx).elim
    · obtain ⟨rfl, rfl⟩ := hempty.of_isSilent rfl
      obtain ⟨t, rfl, hcls, htext, -⟩ := reads_mark_token (c := ')') rfl hclose
      exact ⟨t, _, rfl, hcls, .inr htext⟩
  | _ => cases hbody

/-- The opening parenthesis of a list is a token of the text. If the list is empty, a comma or the
closing parenthesis is next. -/
theorem exists_opening (hn : Formed rule putsHeld tokens hi n) (hk : n.kind.isList = true) :
    ∃ pre t post, tokens = pre ++ t :: post ∧ t.cls = .mark ∧ t.text = "(" ∧ n.start = t.start ∧
      (n.codeChildren = [] →
        ∃ u post', post = u :: post' ∧ u.cls = .mark ∧ (u.text = "," ∨ u.text = ")")) := by
  cases hn with
  | leaf hleaf =>
    rw [isList_of_leaf hleaf] at hk
    cases hk
  | form hform hr hc hread hstart hstop =>
    obtain ⟨body, first, mid, last, _, _, hbody, hxs, hopen, hmid, hclose⟩ :=
      reads_list hform hk hread
    obtain ⟨t, rfl, hcls, htext, hx⟩ := reads_mark_token (c := '(') rfl hopen
    obtain ⟨pre, hpre⟩ := hc.suffix
    have hstart : n.start = t.start := by
      rw [hxs, List.singleton_inj.mp hx] at hstart
      exact hstart
    refine ⟨pre, t, _, hpre.symm, hcls, htext, hstart, fun hnone => ?_⟩
    refine reads_no_element hbody hmid hclose fun x hx => ?_
    have hmem : x ∈ n.children := by
      rw [hxs]
      exact List.mem_cons_of_mem _ (List.mem_append_left _ hx)
    simpa using List.filter_eq_nil_iff.mp hnone x hmem

theorem reads_arguments {s : Symbol} {body : Production} {mid : List Node} {ts' : List Token}
    {zs : List Node} {lo : Nat} (hbody : listBody s = some body) (hs : s ≠ .parameters)
    (hread : Reads rule body h ts mid ts') (hclose : Reads rule (mark ")") h ts' zs rest)
    (hc : Cursor.In ⟨lo, ts⟩ tokens hi h) (hne : mid ≠ []) :
    ∃ x more c u t post, mid = x :: more ∧ x.kind.isNamed = true ∧ ts = c ++ u :: t :: post ∧
      x.stop = u.stop ∧ t.cls = .mark ∧ (t.text = "," ∨ t.text = ")") := by
  cases s with
  | arguments =>
    cases hbody
    rcases reads_alt hread with hread | hread
    · obtain ⟨_, _, _, rfl, hlist, hcomma⟩ := reads_seq hread
      obtain ⟨_, more, _, rfl, harg, hmany⟩ := reads_seq hlist
      obtain ⟨x, c, u, rfl, hnamed, rfl, hstop⟩ :=
        reads_element harg (by decide) (by decide) (by decide) (by decide) (by decide) hc
      obtain ⟨t, post, rfl, hcls, htext⟩ := reads_behind hmany hcomma hclose
      exact ⟨x, _, c, u, t, post, rfl, hnamed, rfl, hstop, hcls, htext⟩
    · exact absurd (hread.of_isSilent rfl).1 hne
  | typedArguments =>
    cases hbody
    rcases reads_alt hread with hread | hread
    · obtain ⟨_, _, _, rfl, harg, htail⟩ := reads_seq hread
      obtain ⟨_, more, _, rfl, hmany, hcomma⟩ := reads_seq htail
      obtain ⟨x, c, u, rfl, hnamed, rfl, hstop⟩ :=
        reads_element harg (by decide) (by decide) (by decide) (by decide) (by decide) hc
      obtain ⟨t, post, rfl, hcls, htext⟩ := reads_behind hmany hcomma hclose
      exact ⟨x, _, c, u, t, post, rfl, hnamed, rfl, hstop, hcls, htext⟩
    · exact absurd (hread.of_isSilent rfl).1 hne
  | parameters => exact absurd rfl hs
  | _ => cases hbody

theorem exists_behind_first (hn : Formed rule putsHeld tokens hi n) (hk : n.kind = .argumentList)
    {first : Node} (hfirst : n.codeChildren.head? = some first) :
    ∃ pre u t post, tokens = pre ++ u :: t :: post ∧ first.stop = u.stop ∧ t.cls = .mark ∧
      (t.text = "," ∨ t.text = ")") := by
  have hlist : n.kind.isList = true := by rw [hk]; rfl
  obtain ⟨opening, closing, mid', hshape⟩ := listShape hn hlist
  cases hn with
  | leaf hleaf =>
    rw [isList_of_leaf hleaf] at hlist
    cases hlist
  | @form s r h lo ts rest hform hr hc hread hstart hstop =>
    have hs : s ≠ .parameters := by
      rintro rfl
      have hnone : ∀ p ∈ (rule .parameters).forms, p.1 ≠ .argumentList := by decide +kernel
      exact hnone _ hform hk
    obtain ⟨body, _, mid, _, ts₁, ts₂, hbody, hxs, hopen, hmid, hclose⟩ :=
      reads_list hform hlist hread
    obtain ⟨t₀, rfl, -, -, hx⟩ := reads_mark_token (c := '(') rfl hopen
    obtain ⟨-, -, -, hc₁⟩ := reads_mark_place hopen hc
    obtain ⟨hopening, hrest⟩ := List.cons.inj (hshape.children.symm.trans hxs)
    obtain ⟨rfl, -⟩ : mid' = mid ∧ _ := List.append_inj' hrest rfl
    have hmem : first ∈ mid' := hshape.mem_mid (List.mem_of_mem_head? hfirst)
    obtain ⟨x, more, c, u, t, post, rfl, hnamed, rfl, hstop, hcls, htext⟩ :=
      reads_arguments hbody hs hmid hclose hc₁ (List.ne_nil_of_mem hmem)
    -- the parenthesis before it is no element, so this node is the first one
    obtain rfl : x = first := by
      unfold Node.codeChildren at hfirst
      rw [hshape.children, List.filter_cons_of_neg (by rw [hshape.opened.1]; decide),
        List.cons_append,
        List.filter_cons_of_pos (p := fun y : Node => y.kind.isNamed) hnamed] at hfirst
      exact Option.some.inj hfirst
    obtain ⟨pre, hpre⟩ := hc.suffix
    refine ⟨pre ++ t₀ :: c, u, t, post, ?_, hstop, hcls, htext⟩
    rw [← hpre, List.append_assoc]
    rfl

end

end Grammar

end ParamThreading
