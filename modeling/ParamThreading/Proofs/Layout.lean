import Mathlib.Data.List.Basic
import ParamThreading.Proofs.Reading
import ParamThreading.Proofs.TokenOrder
import ParamThreading.Proofs.Tree

/-!
# Where nodes stand

The nodes that a rule reads lie one behind the other between the tokens before and the tokens behind
them, if the rule puts a held node in front of all else and begins no node with a line break. Both
can be read off the rules.

* `Rule.isLaidOut`, `Rule.isSoft`, `Rule.isFilled`  what is checked of a rule;
* `Cursor`  a place between tokens;
* `Laid`  nodes in order up to such a place;
* `Node.Neat`  a node around children in order;
* `Rule.Reads.laid`  reading keeps the order, and every node read is neat.
-/

namespace ParamThreading

/-! ## checks -/

def Terminal.isSolid : Terminal → Bool
  | .cls c => c.isSolid
  | _ => true

namespace Rule

variable {σ : Type}

/-- The rule may put the held node in place, given which symbols do. -/
def usesHeld (held : σ → Bool) : Rule σ → Bool
  | .held | .extend _ => true
  | .ref s => held s
  | .seq a b | .alt a b => usesHeld held a || usesHeld held b
  | .hold r _ | .many r | .wide _ r | .label _ r | .node _ r => usesHeld held r
  | _ => false

def isSilent : Rule σ → Bool
  | .empty | .onLine | .ahead _ | .notAhead _ => true
  | _ => false

/-- Among the nodes that the rule yields is one that covers some text. -/
def isFilled : Rule σ → Bool
  | .token t | .leaf _ t => t.isSolid
  | .ref _ | .held | .extend _ | .fail => true
  | .seq a b => isFilled a || isFilled b
  | .alt a b => isFilled a && isFilled b
  | .hold _ r | .wide _ r | .label _ r | .node _ r => isFilled r
  | _ => false

def isSoft : Rule σ → Bool
  | .lineEnd => false
  | .seq a b => isSoft a && (isFilled a || isSoft b)
  | .alt a b => isSoft a && isSoft b
  | .hold _ r | .many r | .wide _ r | .label _ r => isSoft r
  | _ => true

/-- The rule puts the held node in front of all else, begins no node with a line break, and has no
empty tokens but for the content of a raw string. -/
def isLaidOut (held : σ → Bool) : Rule σ → Bool
  | .token t => t.isSolid
  | .leaf k t => t.isSolid || !k.isSolid
  | .seq a b => isLaidOut held a && isLaidOut held b && (isSilent a || !usesHeld held b)
  | .alt a b => isLaidOut held a && isLaidOut held b
  | .many r => isLaidOut held r && !usesHeld held r
  | .wide _ r | .label _ r => isLaidOut held r
  | .node _ r | .extend r => isLaidOut held r && isSoft r && isFilled r
  | .hold a b => isLaidOut held a && isSoft a && isFilled a && isLaidOut held b
  | _ => true

/-- A grammar all of whose rules pass the checks. -/
structure LaidOut (grammar : σ → Rule σ) (held : σ → Bool) : Prop where
  isLaidOut : ∀ s, (grammar s).isLaidOut held = true
  isSoft : ∀ s, (grammar s).isSoft = true
  isFilled : ∀ s, (grammar s).isFilled = true
  usesHeld : ∀ s, (grammar s).usesHeld held = true → held s = true

end Rule

/-! ## places between tokens -/

/-- A place in the text: where the token before it ends, and the tokens behind it. -/
structure Cursor where
  lo : Nat
  ts : List Token

namespace Cursor

variable (c : Cursor) (hi : Nat)

def lineBreak? : Option Nat := c.ts.head?.bind (·.lineBreak)

/-- Where the next node begins at the earliest, which is at a line break if there is one. -/
def floor : Nat := c.lineBreak?.getD c.lo

/-- Where the node before ends at the latest, which is behind the line break if there is one. -/
def ceiling : Nat := (c.lineBreak?.map (· + 1)).getD c.lo

def entry : Nat := (c.ts.head?.map Token.start).getD hi

/-- The tokens lie in order between the place and the end of the text. -/
def Valid : Prop := Token.Chained hi c.lo c.ts

variable {c hi}

theorem Valid.lo_le_floor (h : c.Valid hi) : c.lo ≤ c.floor := by
  unfold floor lineBreak?
  cases hts : c.ts with
  | nil => exact Nat.le_refl _
  | cons t ts =>
    cases hb : t.lineBreak with
    | none => simp [hb]
    | some a =>
      have h' : Token.Chained hi c.lo (t :: ts) := hts ▸ h
      simpa [hb] using (h'.1 a hb).1

theorem floor_le_ceiling : c.floor ≤ c.ceiling := by
  unfold floor ceiling
  cases c.lineBreak? with
  | none => exact Nat.le_refl _
  | some a => exact Nat.le_succ a

theorem Valid.ceiling_le_entry (h : c.Valid hi) : c.ceiling ≤ c.entry hi := by
  unfold ceiling lineBreak? entry
  cases hts : c.ts with
  | nil =>
    have h' : Token.Chained hi c.lo [] := hts ▸ h
    exact h'
  | cons t ts =>
    have h' : Token.Chained hi c.lo (t :: ts) := hts ▸ h
    cases hb : t.lineBreak with
    | none => simpa [hb] using h'.2.1
    | some a =>
      have hlt := (h'.1 a hb).2
      simpa [hb] using Nat.succ_le_of_lt hlt

structure Le (hi : Nat) (c d : Cursor) : Prop where
  floor : c.floor ≤ d.floor
  ceiling : c.ceiling ≤ d.ceiling
  entry : c.entry hi ≤ d.entry hi

theorem Le.refl (c : Cursor) : Le hi c c := ⟨Nat.le_refl _, Nat.le_refl _, Nat.le_refl _⟩

theorem Le.trans {c d e : Cursor} (h₁ : Le hi c d) (h₂ : Le hi d e) : Le hi c e :=
  ⟨h₁.floor.trans h₂.floor, h₁.ceiling.trans h₂.ceiling, h₁.entry.trans h₂.entry⟩

theorem Le.of_entry {d : Cursor} (hc : c.Valid hi) (hd : d.Valid hi) (h : c.entry hi ≤ d.lo) :
    Le hi c d := by
  have h₁ := hc.ceiling_le_entry
  have h₂ := hd.lo_le_floor
  have h₃ := hd.ceiling_le_entry
  have h₄ := @floor_le_ceiling c
  have h₅ := @floor_le_ceiling d
  constructor <;> omega

end Cursor

/-! ## what a terminal takes -/

namespace Terminal

theorem spell_chained {cs : List Char} {ts rest : List Token} {stop : Option Nat} {b hi lo : Nat}
    (h : spell cs stop ts = some (b, rest)) (hts : Token.Chained hi lo ts)
    (hstop : ∀ a, stop = some a → a = lo) : lo ≤ b ∧ Token.Chained hi b rest ∧
      (cs ≠ [] → ∃ t ts', ts = t :: ts' ∧ t.start < b) := by
  induction cs generalizing ts stop lo with
  | nil =>
    cases stop with
    | none => cases h
    | some a =>
      cases h
      rw [hstop _ rfl]
      exact ⟨Nat.le_refl _, hts, fun hne => absurd rfl hne⟩
  | cons c cs ih =>
    cases ts with
    | nil => cases h
    | cons t ts =>
      simp only [spell] at h
      split at h
      case isTrue hcond =>
        simp only [Bool.and_eq_true, beq_iff_eq] at hcond
        obtain ⟨-, hlo, -, hsolid, hchain⟩ := hts
        obtain ⟨hb, hrest, -⟩ := ih h hchain (fun a ha => by cases ha; rfl)
        have hlt : t.start < t.stop := hsolid (by rw [hcond.1.1]; rfl)
        exact ⟨by omega, hrest, fun _ => ⟨t, ts, rfl, by omega⟩⟩
      case isFalse => cases h

theorem take_chained {t : Terminal} {ts rest : List Token} {a b hi lo : Nat}
    (h : t.take ts = some (a, b, rest)) (hts : Token.Chained hi lo ts) :
    (∃ first ts', ts = first :: ts' ∧ a = first.start) ∧ lo ≤ a ∧ a ≤ b ∧
      (t.isSolid = true → a < b) ∧ Token.Chained hi b rest := by
  cases ts with
  | nil => cases h
  | cons first ts =>
    have hone :
        ∀ {p : Prop} [Decidable p] {x}, (if p then some (first.start, first.stop, ts) else none)
        = some x → x = (first.start, first.stop, ts) ∧ p := by
      intro p _ x hx
      split at hx
      · cases hx; exact ⟨rfl, ‹p›⟩
      · cases hx
    obtain ⟨-, hlo, hle, hsolid, hchain⟩ := id hts
    cases t with
    | word reserved =>
      obtain ⟨e, hp⟩ := hone h
      cases e
      simp only [Bool.and_eq_true, beq_iff_eq] at hp
      exact ⟨⟨first, _, rfl, rfl⟩, hlo, hle, fun _ => hsolid (by rw [hp.1]; rfl), hchain⟩
    | keyword w =>
      obtain ⟨e, hp⟩ := hone h
      cases e
      simp only [Bool.and_eq_true, beq_iff_eq] at hp
      exact ⟨⟨first, _, rfl, rfl⟩, hlo, hle, fun _ => hsolid (by rw [hp.1]; rfl), hchain⟩
    | mark s longer =>
      simp only [take] at h
      split at h
      · cases h
      · obtain ⟨⟨stop, after⟩, hs, e⟩ := Option.map_eq_some_iff.mp h
        cases e
        obtain ⟨hb, hrest, hlt⟩ := spell_chained hs hts nofun
        have hne : s.toList ≠ [] := by
          intro hnil
          rw [hnil] at hs
          cases hs
        obtain ⟨_, _, e, hlt⟩ := hlt hne
        cases e
        exact ⟨⟨first, ts, rfl, rfl⟩, hlo, Nat.le_of_lt hlt, fun _ => hlt, hrest⟩
    | cls c =>
      obtain ⟨e, hp⟩ := hone h
      cases e
      simp only [beq_iff_eq] at hp
      exact ⟨⟨first, _, rfl, rfl⟩, hlo, hle, fun hc => hsolid (by rw [hp]; exact hc), hchain⟩

end Terminal

/-! ## nodes in order -/

/-- Bounds from below: for where nodes begin, where they end, and where named nodes begin. -/
structure Bounds where
  start : Nat
  stop : Nat
  named : Nat

namespace Bounds

def atCursor (hi : Nat) (c : Cursor) : Bounds := ⟨c.floor, c.ceiling, c.entry hi⟩

def atNode (n : Node) : Bounds := ⟨n.start, n.stop, n.start⟩

structure Le (p q : Bounds) : Prop where
  start : p.start ≤ q.start
  stop : p.stop ≤ q.stop
  named : p.named ≤ q.named

theorem Le.refl (p : Bounds) : Le p p := ⟨Nat.le_refl _, Nat.le_refl _, Nat.le_refl _⟩

theorem Le.trans {p q r : Bounds} (h₁ : Le p q) (h₂ : Le q r) : Le p r :=
  ⟨h₁.start.trans h₂.start, h₁.stop.trans h₂.stop, h₁.named.trans h₂.named⟩

theorem atCursor_le {hi : Nat} {c d : Cursor} (h : Cursor.Le hi c d) :
    Le (atCursor hi c) (atCursor hi d) :=
  ⟨h.floor, h.ceiling, h.entry⟩

end Bounds

/-- The order of nodes side by side. Line breaks can be told twice, so that only named nodes are
sure to begin behind what stands before them. -/
def Before (x y : Node) : Prop :=
  x.start ≤ y.start ∧ x.stop ≤ y.stop ∧ (y.kind.isNamed = true → x.stop ≤ y.start)

/-- Nodes in order that lie between bounds and a place in the text. -/
structure Laid (low : Bounds) (d : Cursor) (xs : List Node) : Prop where
  within : ∀ x ∈ xs, x.start ≤ x.stop ∧ low.start ≤ x.start ∧ x.start ≤ d.floor ∧
    low.stop ≤ x.stop ∧ x.stop ≤ d.ceiling ∧ (x.kind.isNamed = true → low.named ≤ x.start)
  ordered : xs.Pairwise Before

namespace Laid

variable {hi : Nat} {low low' : Bounds} {d e : Cursor} {xs ys : List Node}

theorem nil (low : Bounds) (d : Cursor) : Laid low d [] :=
  ⟨fun _ h => absurd h List.not_mem_nil, .nil⟩

theorem weaken (h : Laid low d xs) (hlow : low'.Le low) : Laid low' d xs := by
  refine ⟨fun x hx => ?_, h.ordered⟩
  obtain ⟨h₁, h₂, h₃, h₄, h₅, h₆⟩ := h.within x hx
  exact ⟨h₁, hlow.start.trans h₂, h₃, hlow.stop.trans h₄, h₅, fun hn => hlow.named.trans (h₆ hn)⟩

theorem append (h : Laid low d xs) (h' : Laid (.atCursor hi d) e ys) (hd : d.Valid hi)
    (hde : Cursor.Le hi d e) (hlow : low.Le (.atCursor hi d)) : Laid low e (xs ++ ys) := by
  refine ⟨fun x hx => ?_, List.pairwise_append.mpr ⟨h.ordered, h'.ordered, fun x hx y hy => ?_⟩⟩
  · rcases List.mem_append.mp hx with hx | hx
    · obtain ⟨h₁, h₂, h₃, h₄, h₅, h₆⟩ := h.within x hx
      exact ⟨h₁, h₂, h₃.trans hde.floor, h₄, h₅.trans hde.ceiling, h₆⟩
    · exact (h'.weaken hlow).within x hx
  · obtain ⟨-, -, h₃, -, h₅, -⟩ := h.within x hx
    obtain ⟨-, g₂, -, g₄, -, g₆⟩ := h'.within y hy
    exact ⟨h₃.trans g₂, h₅.trans g₄, fun hn => (h₅.trans hd.ceiling_le_entry).trans (g₆ hn)⟩

theorem spanning_covers (h : Laid low d xs) (k : Kind) {x : Node} (hx : x ∈ xs) :
    (Node.spanning k xs).start ≤ x.start ∧ x.stop ≤ (Node.spanning k xs).stop := by
  constructor
  · cases xs with
    | nil => cases hx
    | cons y ys =>
      show y.start ≤ x.start
      rcases List.mem_cons.mp hx with rfl | hx
      · exact Nat.le_refl _
      · exact ((List.pairwise_cons.mp h.ordered).1 x hx).1
  · obtain rfl | ⟨ys, y, rfl⟩ := List.eq_nil_or_concat xs
    · cases hx
    · rw [List.concat_eq_append] at h hx ⊢
      have hstop : (Node.spanning k (ys ++ [y])).stop = y.stop := by
        simp [Node.spanning, Node.stop]
      rw [hstop]
      rcases List.mem_append.mp hx with hx | hx
      · exact ((List.pairwise_append.mp h.ordered).2.2 x hx y (List.mem_singleton_self y)).2.1
      · rw [List.mem_singleton.mp hx]

end Laid

/-- A node that covers some text, if its kind does, and its children, which lie in order. -/
structure Node.Neat (n : Node) : Prop where
  filled : n.kind.isSolid = true → n.start < n.stop
  within : ∀ c ∈ n.children, n.start ≤ c.start ∧ c.stop ≤ n.stop
  ordered : n.children.Pairwise Before

theorem Node.all_neat_withRole {n : Node} {role : Role} (h : n.All Node.Neat) :
    (n.withRole role).All Node.Neat := by
  cases n with
  | mk k r a b cs =>
    obtain ⟨⟨h₁, h₂, h₃⟩, h⟩ := Node.all_iff.mp h
    exact Node.all_iff.mpr ⟨⟨h₁, h₂, h₃⟩, h⟩

theorem Node.all_neat_leaf {k : Kind} {r : Option Role} {a b : Nat}
    (h : k.isSolid = true → a < b) : (Node.mk k r a b []).All Node.Neat :=
  Node.all_iff.mpr ⟨⟨h, nofun, .nil⟩, nofun⟩

/-! ## reading keeps the order -/

/-- A held node covers some text and lies before a place in the text. -/
structure HeldFits (c : Cursor) (x : Node) : Prop where
  neat : x.All Node.Neat
  filled : x.start < x.stop
  start : x.start ≤ c.floor
  stop : x.stop ≤ c.ceiling

/-- The bounds of what is read at a place: those of the held node if it may be put in place. -/
def Bounds.low (hi : Nat) (c : Cursor) (h : Option Node) (uses : Bool) : Bounds :=
  match uses, h with
  | true, some x => .atNode x
  | _, _ => .atCursor hi c

theorem Bounds.low_le_atCursor {hi : Nat} {c : Cursor} {h : Option Node} (hc : c.Valid hi)
    (hh : ∀ x, h = some x → HeldFits c x) (uses : Bool) :
    Bounds.Le (.low hi c h uses) (.atCursor hi c) := by
  cases uses with
  | false => exact .refl _
  | true =>
    cases h with
    | none => exact .refl _
    | some x =>
      have hx := hh x rfl
      have h₁ := hc.ceiling_le_entry
      have h₂ := @Cursor.floor_le_ceiling c
      exact ⟨hx.start, hx.stop, by show x.start ≤ c.entry hi; have := hx.start; omega⟩

theorem Bounds.low_mono {hi : Nat} {c : Cursor} {h : Option Node} (hc : c.Valid hi)
    (hh : ∀ x, h = some x → HeldFits c x) {uses uses' : Bool} (hu : uses = true → uses' = true) :
    Bounds.Le (.low hi c h uses') (.low hi c h uses) := by
  cases uses with
  | false => exact low_le_atCursor hc hh uses'
  | true => rw [hu rfl]; exact .refl _

/-- What a reading from one place to another yields. -/
structure Fits (hi : Nat) (low : Bounds) (c d : Cursor) (soft filled : Bool) (xs : List Node) :
    Prop where
  valid : d.Valid hi
  le : Cursor.Le hi c d
  neat : ∀ x ∈ xs, x.All Node.Neat
  laid : Laid low d xs
  soft : soft = true → ∀ x, xs.head? = some x → low.named ≤ x.start
  filled : filled = true → ∃ x ∈ xs, x.start < x.stop

theorem Fits.nothing {hi : Nat} {low : Bounds} {c : Cursor} (hc : c.Valid hi) (soft : Bool) :
    Fits hi low c c soft false [] :=
  ⟨hc, .refl c, nofun, .nil low c, fun _ => nofun, nofun⟩

theorem Fits.weaken {hi : Nat} {low low' : Bounds} {c d : Cursor} {soft filled : Bool}
    {xs : List Node} (h : Fits hi low c d soft filled xs) (hlow : low'.Le low) :
    Fits hi low' c d soft filled xs :=
  ⟨h.valid, h.le, h.neat, h.laid.weaken hlow, fun hs x hx => hlow.named.trans (h.soft hs x hx),
    h.filled⟩

theorem Fits.terminal {hi : Nat} {c : Cursor} {t : Terminal} {a b : Nat} {rest : List Token}
    (hc : c.Valid hi) (h : t.take c.ts = some (a, b, rest)) (k : Kind)
    (hk : (t.isSolid || !k.isSolid) = true) :
    Fits hi (.atCursor hi c) c ⟨b, rest⟩ true t.isSolid [.mk k none a b []] := by
  obtain ⟨⟨first, ts, hts, ha⟩, -, hab, hsolid, hrest⟩ := Terminal.take_chained h hc
  have hentry : c.entry hi = a := by simp [Cursor.entry, hts, ha]
  have hd : Cursor.Valid ⟨b, rest⟩ hi := hrest
  have hle : Cursor.Le hi c ⟨b, rest⟩ := .of_entry hc hd (by rw [hentry]; exact hab)
  have h₁ : b ≤ Cursor.floor ⟨b, rest⟩ := hd.lo_le_floor
  have h₂ : Cursor.floor ⟨b, rest⟩ ≤ Cursor.ceiling ⟨b, rest⟩ := Cursor.floor_le_ceiling
  have h₃ := hc.ceiling_le_entry
  have h₄ := @Cursor.floor_le_ceiling c
  refine ⟨hd, hle, fun x hx => ?_, ⟨fun x hx => ?_, List.pairwise_singleton ..⟩, fun _ x hx => ?_,
    fun hs => ?_⟩
  · rw [List.mem_singleton.mp hx]
    refine Node.all_neat_leaf fun hsolid' => hsolid ?_
    simpa [hsolid'] using hk
  · rw [List.mem_singleton.mp hx]
    refine ⟨hab, ?_, hab.trans h₁, ?_, h₁.trans h₂, fun _ => Nat.le_of_eq hentry⟩
    · show c.floor ≤ a
      omega
    · show c.ceiling ≤ b
      omega
  · cases hx
    exact Nat.le_of_eq hentry
  · exact ⟨_, List.mem_singleton_self _, hsolid hs⟩

theorem Fits.seq {hi : Nat} {low : Bounds} {c d e : Cursor} {soft soft' filled filled' : Bool}
    {xs ys : List Node} (h : Fits hi low c d soft filled xs)
    (h' : Fits hi (.atCursor hi d) d e soft' filled' ys) (hlow : low.Le (.atCursor hi c)) :
    Fits hi low c e (soft && (filled || soft')) (filled || filled') (xs ++ ys) := by
  have hlow' := hlow.trans (Bounds.atCursor_le h.le)
  refine ⟨h'.valid, h.le.trans h'.le, fun x hx => ?_, h.laid.append h'.laid h.valid h'.le hlow',
    fun hs x hx => ?_, fun hf => ?_⟩
  · exact (List.mem_append.mp hx).elim (h.neat x) (h'.neat x)
  · simp only [Bool.and_eq_true, Bool.or_eq_true] at hs
    cases xs with
    | cons y ys => exact h.soft hs.1 x hx
    | nil =>
      rcases hs.2 with hf | hs'
      · obtain ⟨_, hmem, -⟩ := h.filled hf
        cases hmem
      · exact hlow'.named.trans (h'.soft hs' x hx)
  · rcases Bool.or_eq_true_iff.mp hf with hf | hf
    · obtain ⟨x, hx, hlt⟩ := h.filled hf
      exact ⟨x, List.mem_append_left _ hx, hlt⟩
    · obtain ⟨x, hx, hlt⟩ := h'.filled hf
      exact ⟨x, List.mem_append_right _ hx, hlt⟩

theorem Fits.spanning {hi : Nat} {low : Bounds} {c d : Cursor} {xs : List Node}
    (h : Fits hi low c d true true xs) (k : Kind) :
    Fits hi low c d true true [.spanning k xs] := by
  obtain ⟨x, hx, hlt⟩ := h.filled rfl
  obtain ⟨hstart, hstop⟩ := h.laid.spanning_covers k hx
  obtain ⟨first, hfirst⟩ : ∃ y, xs.head? = some y := by
    cases xs with
    | nil => cases hx
    | cons y ys => exact ⟨y, rfl⟩
  obtain ⟨last, hlast⟩ : ∃ y, xs.getLast? = some y := by
    cases hl : xs.getLast? with
    | none => rw [List.getLast?_eq_none_iff.mp hl] at hx; cases hx
    | some y => exact ⟨y, rfl⟩
  have ha : (Node.spanning k xs).start = first.start := by simp [Node.spanning, Node.start, hfirst]
  have hb : (Node.spanning k xs).stop = last.stop := by simp [Node.spanning, Node.stop, hlast]
  obtain ⟨-, h₁, h₂, -, -, -⟩ := h.laid.within first (List.mem_of_head? hfirst)
  obtain ⟨-, -, -, h₃, h₄, -⟩ := h.laid.within last (List.mem_of_getLast? hlast)
  have hnamed := h.soft rfl first hfirst
  refine ⟨h.valid, h.le, fun y hy => ?_, ⟨fun y hy => ?_, List.pairwise_singleton ..⟩,
    fun _ y hy => ?_, fun _ => ⟨_, List.mem_singleton_self _, by omega⟩⟩
  · rw [List.mem_singleton.mp hy]
    exact Node.all_iff.mpr ⟨⟨fun _ => by omega, fun _ => h.laid.spanning_covers k, h.laid.ordered⟩,
      h.neat⟩
  · rw [List.mem_singleton.mp hy]
    refine ⟨by omega, ?_, ?_, ?_, ?_, fun _ => ?_⟩ <;> omega
  · cases hy
    omega

theorem giveRole_eq (role : Role) (xs : List Node) :
    ∃ f : Node → Node, Rule.giveRole role xs = xs.map f ∧ ∀ x, f x = x ∨ f x = x.withRole role := by
  refine ⟨_, rfl, fun x => ?_⟩
  split
  · exact .inr rfl
  · exact .inl rfl

theorem Fits.giveRole {hi : Nat} {low : Bounds} {c d : Cursor} {soft filled : Bool} {xs : List Node}
    (h : Fits hi low c d soft filled xs) (role : Role) :
    Fits hi low c d soft filled (Rule.giveRole role xs) := by
  obtain ⟨f, e, hcase⟩ := giveRole_eq role xs
  have hf : ∀ x, (f x).kind = x.kind ∧ (f x).start = x.start ∧ (f x).stop = x.stop := by
    intro x
    rcases hcase x with hx | hx
    · rw [hx]; exact ⟨rfl, rfl, rfl⟩
    · rw [hx]; simp
  rw [e]
  refine ⟨h.valid, h.le, fun y hy => ?_, ⟨fun y hy => ?_, ?_⟩, fun hs y hy => ?_, fun hfill => ?_⟩
  · obtain ⟨x, hx, rfl⟩ := List.mem_map.mp hy
    rcases hcase x with h' | h'
    · rw [h']; exact h.neat x hx
    · rw [h']; exact Node.all_neat_withRole (h.neat x hx)
  · obtain ⟨x, hx, rfl⟩ := List.mem_map.mp hy
    obtain ⟨hk, ha, hb⟩ := hf x
    rw [hk, ha, hb]
    exact h.laid.within x hx
  · refine List.pairwise_map.mpr (h.laid.ordered.imp fun {x y} hxy => ?_)
    obtain ⟨hk, ha, hb⟩ := hf x
    obtain ⟨hk', ha', hb'⟩ := hf y
    simp only [Before, ha, hb, hk', ha', hb']
    exact hxy
  · rw [List.head?_map] at hy
    obtain ⟨x, hx, rfl⟩ := Option.map_eq_some_iff.mp hy
    rw [(hf x).2.1]
    exact h.soft hs x hx
  · obtain ⟨x, hx, hlt⟩ := h.filled hfill
    exact ⟨f x, List.mem_map_of_mem hx, by rw [(hf x).2.1, (hf x).2.2]; exact hlt⟩

theorem Fits.relax {hi : Nat} {low : Bounds} {b c d : Cursor} {soft soft' filled filled' : Bool}
    {xs : List Node} (h : Fits hi low c d soft filled xs) (hbc : Cursor.Le hi b c)
    (hs : soft' = true → soft = true) (hf : filled' = true → filled = true) :
    Fits hi low b d soft' filled' xs :=
  ⟨h.valid, hbc.trans h.le, h.neat, h.laid, fun hs' => h.soft (hs hs'),
    fun hf' => h.filled (hf hf')⟩

theorem HeldFits.mono {hi : Nat} {c d : Cursor} {x : Node} (h : HeldFits c x)
    (hcd : Cursor.Le hi c d) : HeldFits d x :=
  ⟨h.neat, h.filled, h.start.trans hcd.floor, h.stop.trans hcd.ceiling⟩

theorem HeldFits.fits {hi : Nat} {c : Cursor} {x : Node} (h : HeldFits c x) (hc : c.Valid hi) :
    Fits hi (.atNode x) c c true true [x] := by
  refine ⟨hc, .refl c, fun y hy => ?_, ⟨fun y hy => ?_, List.pairwise_singleton ..⟩,
    fun _ y hy => ?_, fun _ => ⟨x, List.mem_singleton_self x, h.filled⟩⟩
  · rw [List.mem_singleton.mp hy]
    exact h.neat
  · rw [List.mem_singleton.mp hy]
    exact ⟨Nat.le_of_lt h.filled, Nat.le_refl _, h.start, Nat.le_refl _, h.stop,
      fun _ => Nat.le_refl _⟩
  · cases hy
    exact Nat.le_refl _

/-- A node that was read alone can be held, and what is then read keeps its bounds. -/
theorem Fits.held {hi : Nat} {low : Bounds} {c d : Cursor} {x : Node}
    (h : Fits hi low c d true true [x]) (hlow : low.Le (.atCursor hi c)) :
    HeldFits d x ∧ ∀ uses, low.Le (.low hi d (some x) uses) := by
  obtain ⟨-, h₁, h₂, h₃, h₄, -⟩ := h.laid.within x (List.mem_singleton_self x)
  obtain ⟨y, hy, hlt⟩ := h.filled rfl
  rw [List.mem_singleton.mp hy] at hlt
  refine ⟨⟨h.neat x (List.mem_singleton_self x), hlt, h₂, h₄⟩, fun uses => ?_⟩
  cases uses with
  | false => exact hlow.trans (Bounds.atCursor_le h.le)
  | true => exact ⟨h₁, h₃, h.soft rfl x rfl⟩

namespace Rule

variable {σ : Type} {grammar : σ → Rule σ} {held : σ → Bool}

theorem isFilled_of_isSilent {r : Rule σ} (h : r.isSilent = true) : r.isFilled = false := by
  cases r with
  | empty | onLine | ahead | notAhead => rfl
  | _ => cases h

theorem Reads.silent {r : Rule σ} {h : Option Node} {ts rest : List Token} {xs : List Node}
    (hread : Reads grammar r h ts xs rest) (hr : r.isSilent = true) : xs = [] ∧ rest = ts := by
  cases hread with
  | empty | onLine | ahead | notAhead => exact ⟨rfl, rfl⟩
  | _ => cases hr

/-- What a rule reads lies in order, between the place where it begins, or the node that is held
there, and the place where it ends. -/
theorem Reads.laid (hgrammar : LaidOut grammar held) {r : Rule σ} {h : Option Node}
    {ts rest : List Token} {xs : List Node} {hi lo : Nat} (hread : Reads grammar r h ts xs rest)
    (hr : r.isLaidOut held = true) (hc : Cursor.Valid ⟨lo, ts⟩ hi)
    (hh : ∀ x, h = some x → HeldFits ⟨lo, ts⟩ x) :
    ∃ lo', Fits hi (.low hi ⟨lo, ts⟩ h (r.usesHeld held)) ⟨lo, ts⟩ ⟨lo', rest⟩
      r.isSoft r.isFilled xs := by
  induction hread generalizing lo with
  | empty | onLine | finish | none | ahead | notAhead => exact ⟨lo, .nothing hc _⟩
  | token ht =>
    rw [isLaidOut] at hr
    exact ⟨_, .terminal hc ht _ (by rw [hr]; rfl)⟩
  | leaf ht => exact ⟨_, .terminal hc ht _ hr⟩
  | @lineBreak h ts t a ht =>
    have hfloor : Cursor.floor ⟨lo, t :: ts⟩ = a := by simp [Cursor.floor, Cursor.lineBreak?, ht]
    have hceiling : Cursor.ceiling ⟨lo, t :: ts⟩ = a + 1 := by
      simp [Cursor.ceiling, Cursor.lineBreak?, ht]
    refine ⟨lo, hc, .refl _, fun x hx => ?_, ⟨fun x hx => ?_, List.pairwise_singleton ..⟩,
      nofun, nofun⟩
    · rw [List.mem_singleton.mp hx]
      exact Node.all_neat_leaf fun _ => Nat.lt_succ_self a
    · rw [List.mem_singleton.mp hx]
      exact ⟨Nat.le_succ a, Nat.le_of_eq hfloor, Nat.le_of_eq hfloor.symm, Nat.le_of_eq hceiling,
        Nat.le_of_eq hceiling.symm, nofun⟩
  | @ref h ts xs rest s _ ih =>
    obtain ⟨lo', hfit⟩ := ih (hgrammar.isLaidOut s) hc hh
    refine ⟨lo', (hfit.weaken (Bounds.low_mono hc hh (hgrammar.usesHeld s))).relax (.refl _)
      (fun _ => hgrammar.isSoft s) (fun _ => hgrammar.isFilled s)⟩
  | seq hread _ ih₁ ih₂ =>
    simp only [isLaidOut, Bool.and_eq_true, Bool.or_eq_true, Bool.not_eq_true'] at hr
    obtain ⟨⟨hr₁, hr₂⟩, hsilent | hnot⟩ := hr
    · obtain ⟨rfl, rfl⟩ := hread.silent hsilent
      obtain ⟨lo', h₂⟩ := ih₂ hr₂ hc hh
      refine ⟨lo', (h₂.weaken (Bounds.low_mono hc hh fun e => ?_)).relax (.refl _) ?_ ?_⟩
      · exact Bool.or_eq_true_iff.mpr (.inr e)
      · intro e
        simpa [isFilled_of_isSilent hsilent] using (Bool.and_eq_true_iff.mp e).2
      · intro e
        simpa [isFilled_of_isSilent hsilent] using (Bool.or_eq_true_iff.mp e)
    · obtain ⟨m, h₁⟩ := ih₁ hr₁ hc hh
      obtain ⟨lo', h₂⟩ := ih₂ hr₂ h₁.valid fun x hx => (hh x hx).mono h₁.le
      rw [hnot] at h₂
      rw [usesHeld, hnot, Bool.or_false]
      exact ⟨lo', h₁.seq h₂ (Bounds.low_le_atCursor hc hh _)⟩
  | first _ ih =>
    obtain ⟨lo', hfit⟩ := ih (Bool.and_eq_true_iff.mp hr).1 hc hh
    refine ⟨lo', (hfit.weaken (Bounds.low_mono hc hh fun e => ?_)).relax (.refl _)
      (fun e => (Bool.and_eq_true_iff.mp e).1) (fun e => (Bool.and_eq_true_iff.mp e).1)⟩
    exact Bool.or_eq_true_iff.mpr (.inl e)
  | second _ ih =>
    obtain ⟨lo', hfit⟩ := ih (Bool.and_eq_true_iff.mp hr).2 hc hh
    refine ⟨lo', (hfit.weaken (Bounds.low_mono hc hh fun e => ?_)).relax (.refl _)
      (fun e => (Bool.and_eq_true_iff.mp e).2) (fun e => (Bool.and_eq_true_iff.mp e).2)⟩
    exact Bool.or_eq_true_iff.mpr (.inr e)
  | @more h ts mid rest xs ys r _ _ ih₁ ih₂ =>
    obtain ⟨hr₁, hnot⟩ := Bool.and_eq_true_iff.mp hr
    rw [Bool.not_eq_true'] at hnot
    obtain ⟨m, h₁⟩ := ih₁ hr₁ hc hh
    obtain ⟨lo', h₂⟩ := ih₂ hr h₁.valid fun x hx => (hh x hx).mono h₁.le
    rw [usesHeld, hnot] at h₂ ⊢
    rw [hnot] at h₁
    exact ⟨lo', (h₁.seq h₂ (.refl _)).relax (.refl _)
      (fun e => by rw [isSoft] at e ⊢; simp [e]) nofun⟩
  | wide _ ih => exact ih hr hc hh
  | @node h ts rest xs k r _ ih =>
    simp only [isLaidOut, Bool.and_eq_true] at hr
    obtain ⟨⟨hr, hsoft⟩, hfilled⟩ := hr
    obtain ⟨lo', hfit⟩ := ih hr hc hh
    rw [hsoft, hfilled] at hfit
    exact ⟨lo', (hfit.spanning k).relax (.refl _) (fun _ => rfl) (fun _ => rfl)⟩
  | label _ ih =>
    obtain ⟨lo', hfit⟩ := ih hr hc hh
    exact ⟨lo', hfit.giveRole _⟩
  | @hold h ts mid rest x xs base body _ _ ih₁ ih₂ =>
    simp only [isLaidOut, Bool.and_eq_true] at hr
    obtain ⟨⟨⟨hbase, hsoft⟩, hfilled⟩, hbody⟩ := hr
    obtain ⟨m, h₁⟩ := ih₁ hbase hc hh
    rw [hsoft, hfilled] at h₁
    obtain ⟨hheld, hlow⟩ := h₁.held (Bounds.low_le_atCursor hc hh _)
    obtain ⟨lo', h₂⟩ := ih₂ hbody h₁.valid fun y hy => by cases hy; exact hheld
    exact ⟨lo', (h₂.weaken (hlow _)).relax h₁.le id id⟩
  | @held ts x => exact ⟨lo, (hh x rfl).fits hc⟩
  | @extended ts x step => exact ⟨lo, (hh x rfl).fits hc⟩
  | @extend h ts mid rest x xs step _ _ ih₁ ih₂ =>
    obtain ⟨hsteps, hfilled⟩ := Bool.and_eq_true_iff.mp hr
    obtain ⟨hstep, hsoft⟩ := Bool.and_eq_true_iff.mp hsteps
    obtain ⟨m, h₁⟩ := ih₁ hstep hc hh
    rw [hsoft, hfilled] at h₁
    have h₁ := h₁.weaken (Bounds.low_mono hc hh (fun _ => rfl : _ → true = true))
    obtain ⟨hheld, hlow⟩ := h₁.held (Bounds.low_le_atCursor hc hh _)
    obtain ⟨lo', h₂⟩ := ih₂ hr h₁.valid fun y hy => by cases hy; exact hheld
    exact ⟨lo', (h₂.weaken (hlow _)).relax h₁.le id id⟩

end Rule

end ParamThreading
