import Dofile.Proofs.Constructs

/-!
# Brackets

Brackets are paired by the kinds and spans of the leaves alone. What is pending behind some leaves
is a function of what was pending before them, so pairs are told part by part. The leaves of a
string or a macro reference leave what was pending before them as it was, but for the braces of macro
references without their end.
-/

namespace Dofile

abbrev Mark := Kind × Span

def Place.mark (p : Place) : Mark := (p.kind, p.span)

namespace Pair

def push (pending : List Mark) (m : Mark) : List Mark :=
  match closing? m.1 with
  | some closer => (closer, m.2) :: pending
  | none =>
    if isClosing m.1 then
      match pending.dropWhile (·.1 != m.1) with
      | [] => pending
      | _ :: rest => rest
    else pending

def closed? (pending : List Mark) (m : Mark) : Option Pair :=
  if isClosing m.1 then (pending.dropWhile (·.1 != m.1)).head?.map fun o => ⟨o.2, m.2⟩ else none

def behind (pending : List Mark) (ms : List Mark) : List Mark := ms.foldl push pending

def among (pending : List Mark) : List Mark → List Pair
  | [] => []
  | m :: ms => (closed? pending m).toList ++ among (push pending m) ms

theorem isClosing_of_closing {k closer : Kind} (h : closing? k = some closer) : isClosing k = false := by
  unfold closing? at h
  split at h <;> first | rfl | cases h

theorem brackets_eq (pending : List Mark) (leaves : List Place) :
    brackets pending leaves = among pending (leaves.map Place.mark) := by
  induction leaves generalizing pending with
  | nil => rfl
  | cons leaf leaves ih =>
    unfold brackets
    rw [List.map_cons, among, push, closed?, Place.mark]
    cases hopen : closing? leaf.kind with
    | some closer => simp [isClosing_of_closing hopen, ih]
    | none =>
      cases hclose : isClosing leaf.kind with
      | false => simp [ih]
      | true => cases pending.dropWhile (·.1 != leaf.kind) <;> simp [ih]

theorem behind_cons (pending : List Mark) (m : Mark) (ms : List Mark) :
    behind pending (m :: ms) = behind (push pending m) ms := rfl

theorem among_cons (pending : List Mark) (m : Mark) (ms : List Mark) :
    among pending (m :: ms) = (closed? pending m).toList ++ among (push pending m) ms := rfl

theorem behind_append (pending ms ns : List Mark) :
    behind pending (ms ++ ns) = behind (behind pending ms) ns :=
  List.foldl_append

theorem among_append (pending ms ns : List Mark) :
    among pending (ms ++ ns) = among pending ms ++ among (behind pending ms) ns := by
  induction ms generalizing pending with
  | nil => rfl
  | cons m ms ih => rw [List.cons_append, among, among, ih, List.append_assoc]; rfl

/-- What a leaf can do: it opens a bracket, closes the last one of its kind, or neither. -/
theorem push_cases (pending : List Mark) (m : Mark) :
    (∃ closer, closing? m.1 = some closer ∧ push pending m = (closer, m.2) :: pending ∧
      closed? pending m = none) ∨
    (∃ given opener rest, pending = given ++ (m.1, opener) :: rest ∧ isClosing m.1 = true ∧
      push pending m = rest ∧ closed? pending m = some ⟨opener, m.2⟩) ∨
    push pending m = pending ∧ closed? pending m = none := by
  unfold push closed?
  cases hopen : closing? m.1 with
  | some closer => exact .inl ⟨closer, rfl, rfl, by simp [isClosing_of_closing hopen]⟩
  | none =>
    by_cases hclose : isClosing m.1 = true
    · have hkind := List.head?_dropWhile_not (·.1 != m.1) pending
      have hsplit := List.takeWhile_append_dropWhile (p := (·.1 != m.1)) (l := pending)
      cases hdrop : pending.dropWhile (·.1 != m.1) with
      | nil => simp [hclose]
      | cons o rest =>
        rw [hdrop] at hkind hsplit
        have ho : o = (m.1, o.2) := Prod.ext (by simpa using hkind) rfl
        refine .inr (.inl ⟨pending.takeWhile (·.1 != m.1), o.2, rest, ?_,
          hclose, by simp [hclose], by simp [hclose]⟩)
        rw [← ho]
        exact hsplit.symm
    · simp [hclose]

/-! ## Brackets among leaves in order -/

theorem mem_push {pending : List Mark} {m o : Mark} (h : o ∈ push pending m) :
    o ∈ pending ∨ closing? m.1 = some o.1 ∧ o.2 = m.2 := by
  rcases push_cases pending m with ⟨closer, hopen, hpush, -⟩ | ⟨given, opener, rest, rfl, -, hpush, -⟩
    | ⟨hpush, -⟩ <;>
    rw [hpush] at h
  · rcases List.mem_cons.mp h with rfl | h
    · exact .inr ⟨hopen, rfl⟩
    · exact .inl h
  · exact .inl (List.mem_append_right _ (List.mem_cons_of_mem _ h))
  · exact .inl h

theorem mem_behind {pending ms : List Mark} {o : Mark} (h : o ∈ behind pending ms) :
    o ∈ pending ∨ o.2 ∈ ms.map Prod.snd := by
  induction ms generalizing pending with
  | nil => exact .inl h
  | cons m ms ih =>
    rw [List.map_cons, List.mem_cons]
    rcases ih h with h | h
    · exact (mem_push h).imp_right fun hm => .inl hm.2
    · exact .inr (.inr h)

theorem mem_of_closed {pending : List Mark} {m : Mark} {p : Pair} (h : closed? pending m = some p) :
    isClosing m.1 = true ∧ p.closer = m.2 ∧ (m.1, p.opener) ∈ pending := by
  rcases push_cases pending m with ⟨_, _, _, hclosed⟩ | ⟨given, opener, rest, rfl, hclose, _, hclosed⟩
    | ⟨_, hclosed⟩ <;>
    rw [hclosed] at h <;> cases h
  exact ⟨hclose, rfl, by simp⟩

theorem ends_of_among {pending ms : List Mark} {p : Pair} (h : p ∈ among pending ms) :
    ∃ closer, isClosing closer = true ∧ (closer, p.closer) ∈ ms ∧
      ((closer, p.opener) ∈ pending ∨ ∃ k, closing? k = some closer ∧ (k, p.opener) ∈ ms) := by
  induction ms generalizing pending with
  | nil => cases h
  | cons m ms ih =>
    rw [among_cons, List.mem_append, Option.mem_toList] at h
    rcases h with hclosed | h
    · obtain ⟨hclose, hm, hopener⟩ := mem_of_closed hclosed
      exact ⟨m.1, hclose, by rw [hm]; exact List.mem_cons_self, .inl hopener⟩
    · obtain ⟨closer, hclose, hmem, hopener⟩ := ih h
      refine ⟨closer, hclose, List.mem_cons_of_mem m hmem, ?_⟩
      rcases hopener with hpushed | ⟨k, hk, hopener⟩
      · exact (mem_push hpushed).imp_right fun ⟨hk, hs⟩ =>
          ⟨m.1, hk, by rw [show p.opener = m.2 from hs]; exact List.mem_cons_self⟩
      · exact .inr ⟨k, hk, List.mem_cons_of_mem m hopener⟩

structure Ready (openers ms : List Mark) : Prop where
  pending : openers.Pairwise fun a b => b.2.start < a.2.start
  before : ∀ o ∈ openers, ∀ m ∈ ms, o.2.start < m.2.start
  sorted : ms.Pairwise fun a b => a.2.start < b.2.start

theorem Ready.start {ms : List Mark} (h : ms.Pairwise fun a b => a.2.start < b.2.start) : Ready [] ms :=
  ⟨.nil, fun _ ho => absurd ho List.not_mem_nil, h⟩

theorem Ready.push {pending ms : List Mark} {m : Mark} (h : Ready pending (m :: ms)) :
    Ready (push pending m) ms := by
  obtain ⟨hpending, hbefore, hsorted⟩ := h
  obtain ⟨hm, hms⟩ := List.pairwise_cons.mp hsorted
  have hlater : ∀ o ∈ pending, ∀ n ∈ ms, o.2.start < n.2.start :=
    fun o ho n hn => hbefore o ho n (List.mem_cons_of_mem m hn)
  rcases push_cases pending m with ⟨closer, -, hpush, -⟩ | ⟨given, opener, rest, rfl, -, hpush, -⟩
    | ⟨hpush, -⟩ <;> rw [hpush]
  · exact ⟨.cons (fun o ho => hbefore o ho m List.mem_cons_self) hpending,
      List.forall_mem_cons.mpr ⟨hm, hlater⟩, hms⟩
  · have hsub : rest.Sublist (given ++ (m.1, opener) :: rest) :=
      (List.sublist_cons_self _ _).trans (List.sublist_append_right _ _)
    exact ⟨hpending.sublist hsub, fun o ho => hlater o (hsub.subset ho), hms⟩
  · exact ⟨hpending, hlater, hms⟩

/-- Whether of two pairs the one that is closed later lies around the other or behind it. -/
def Apart (p q : Pair) : Prop :=
  p.closer.start < q.closer.start ∧ (q.opener.start < p.opener.start ∨ p.closer.start < q.opener.start)

theorem apart_of_closed {pending ms : List Mark} {m : Mark} (h : Ready pending (m :: ms)) {p q : Pair}
    (hp : closed? pending m = some p) (hq : q ∈ among (push pending m) ms) : Apart p q := by
  obtain ⟨closer, -, hcloser, hopener⟩ := ends_of_among hq
  obtain ⟨hm, -⟩ := List.pairwise_cons.mp h.sorted
  rcases push_cases pending m with ⟨_, _, _, hclosed⟩ | ⟨given, opener, rest, rfl, -, hpush, hclosed⟩
    | ⟨_, hclosed⟩ <;>
    rw [hclosed] at hp <;> cases hp
  refine ⟨hm _ hcloser, ?_⟩
  rcases hopener with hpushed | ⟨k, -, hopener⟩
  · -- what is still pending was opened before the bracket that is closed
    rw [hpush] at hpushed
    have hrest := (List.pairwise_append.mp h.pending).2.1
    exact .inl ((List.pairwise_cons.mp hrest).1 _ hpushed)
  · exact .inr (hm _ hopener)

theorem among_apart {pending ms : List Mark} (h : Ready pending ms) :
    (among pending ms).Pairwise Apart ∧ ∀ p ∈ among pending ms, p.opener.start < p.closer.start := by
  induction ms generalizing pending with
  | nil => exact ⟨.nil, by simp [among]⟩
  | cons m ms ih =>
    obtain ⟨hapart, hordered⟩ := ih h.push
    rw [among_cons]
    cases hclosed : closed? pending m with
    | none => exact ⟨hapart, hordered⟩
    | some p =>
      obtain ⟨-, hcloser, hopener⟩ := mem_of_closed hclosed
      refine ⟨.cons (fun q hq => apart_of_closed h hclosed hq) hapart,
        List.forall_mem_cons.mpr ⟨?_, hordered⟩⟩
      rw [hcloser]
      exact h.before _ hopener m List.mem_cons_self

theorem apart_of_ne {ms : List Mark} (hsorted : ms.Pairwise fun a b => a.2.start < b.2.start) {p q : Pair}
    (hp : p ∈ among [] ms) (hq : q ∈ among [] ms) (hne : p ≠ q) : Apart p q ∨ Apart q p :=
  rel_of_pairwise (among_apart (.start hsorted)).1 hp hq hne

/-! ## Parts that are sealed off -/

/-- Leaves that leave what was pending before them as it was, but for openers of their own of which
something is known. -/
def Sealed (P : Span → Prop) (ms : List Mark) : Prop :=
  ∀ pending, (∃ stale, behind pending ms = stale ++ pending ∧ ∀ o ∈ stale, P o.2) ∧
    ∀ q ∈ among pending ms, q.opener ∈ ms.map Prod.snd

def IsSilent (k : Kind) : Prop := closing? k = none ∧ isClosing k = false

instance (k : Kind) : Decidable (IsSilent k) := inferInstanceAs (Decidable (_ ∧ _))

theorem silent_all {ms : List Mark} (h : ∀ m ∈ ms, IsSilent m.1) (pending : List Mark) :
    behind pending ms = pending ∧ among pending ms = [] := by
  induction ms with
  | nil => exact ⟨rfl, rfl⟩
  | cons m ms ih =>
    obtain ⟨⟨hopen, hclose⟩, hms⟩ := List.forall_mem_cons.mp h
    have hpush : push pending m = pending := by simp [push, hopen, hclose]
    have hclosed : closed? pending m = none := by simp [closed?, hclose]
    rw [behind_cons, among_cons, hpush, hclosed]
    exact ih hms

theorem without_blanks (pending ms : List Mark) :
    behind pending (ms.filter (·.1 != .whitespace)) = behind pending ms ∧
    among pending (ms.filter (·.1 != .whitespace)) = among pending ms := by
  induction ms generalizing pending with
  | nil => exact ⟨rfl, rfl⟩
  | cons m ms ih =>
    obtain ⟨hbehind, hamong⟩ := ih (push pending m)
    rw [behind_cons, among_cons, ← hbehind, ← hamong]
    by_cases hm : m.1 = .whitespace
    · have hpush : push pending m = pending := by unfold push; rw [hm]; rfl
      have hclosed : closed? pending m = none := by unfold closed?; rw [hm]; rfl
      rw [List.filter_cons_of_neg (by simp [hm]), hpush, hclosed]
      exact ⟨rfl, rfl⟩
    · rw [List.filter_cons_of_pos (by simp [hm])]
      exact ⟨rfl, rfl⟩

namespace Sealed

variable {P : Span → Prop} {ms ns : List Mark}

theorem nil : Sealed P [] := fun _ => ⟨⟨[], rfl, by simp⟩, by simp [among]⟩

theorem append (h : Sealed P ms) (h' : Sealed P ns) : Sealed P (ms ++ ns) := by
  intro pending
  obtain ⟨⟨stale, hstale, hP⟩, hpairs⟩ := h pending
  obtain ⟨⟨stale', hstale', hP'⟩, hpairs'⟩ := h' (behind pending ms)
  refine ⟨⟨stale' ++ stale, ?_, fun o ho => (List.mem_append.mp ho).elim (hP' o) (hP o)⟩, fun q hq => ?_⟩
  · rw [behind_append, hstale', hstale, List.append_assoc]
  · rw [among_append, List.mem_append] at hq
    rw [List.map_append, List.mem_append]
    exact hq.imp (hpairs q) (hpairs' q)

theorem silent (h : ∀ m ∈ ms, IsSilent m.1) : Sealed P ms := fun pending =>
  ⟨⟨[], (silent_all h pending).1, by simp⟩, by simp [(silent_all h pending).2]⟩

theorem of_filter (h : Sealed P (ms.filter (·.1 != .whitespace))) : Sealed P ms := by
  intro pending
  obtain ⟨hbehind, hamong⟩ := without_blanks pending ms
  obtain ⟨hstale, hpairs⟩ := h pending
  rw [hbehind] at hstale
  rw [hamong] at hpairs
  refine ⟨hstale, fun q hq => ?_⟩
  obtain ⟨m, hm, ho⟩ := List.mem_map.mp (hpairs q hq)
  exact List.mem_map.mpr ⟨m, (List.mem_filter.mp hm).1, ho⟩

theorem openBrace {s : Span} (h : P s) : Sealed P [(.leftBrace, s)] := fun _ =>
  ⟨⟨[(.rightBrace, s)], rfl, by simpa using h⟩, by simp [among, closed?, isClosing]⟩

theorem braces {s s' : Span} (h : ∀ m ∈ ms, IsSilent m.1) :
    Sealed P ((.leftBrace, s) :: (ms ++ [(.rightBrace, s')])) := by
  intro pending
  have hopen : push pending (.leftBrace, s) = (.rightBrace, s) :: pending := rfl
  obtain ⟨hbehind, hamong⟩ := silent_all h ((.rightBrace, s) :: pending)
  refine ⟨⟨[], ?_, by simp⟩, fun q hq => ?_⟩
  · rw [behind_cons, hopen, behind_append, hbehind]
    rfl
  · have hpair : among pending ((.leftBrace, s) :: (ms ++ [(.rightBrace, s')])) = [⟨s, s'⟩] := by
      rw [among_cons, hopen, among_append, hbehind, hamong]
      rfl
    rw [hpair, List.mem_singleton] at hq
    rw [hq]
    exact List.mem_cons_self

end Sealed

end Pair

/-! ## Constructs -/

namespace Item

def marks (items : List Item) : List Mark := (takenAll items).map fun t => (t.2, t.1.ahead.span)

theorem marks_append (is js : List Item) : marks (is ++ js) = marks is ++ marks js := by
  rw [marks, takenAll_append, List.map_append]
  rfl

theorem marks_token (l : Lexer) (kind : Kind) : marks [.token l kind] = [(kind, l.ahead.span)] := rfl

theorem marks_node (kind : Kind) (is : List Item) : marks [.node kind is] = marks is := by
  simp [marks, takenAll, taken]

theorem marks_enclosed (kind : Kind) (is : List Item) : marks [.enclosed kind is] = marks is := by
  simp [marks, takenAll, taken]

end Item

/-- Whether a span is where a macro reference without its closing brace has its opening one. -/
def IsOpenBrace (found : List Finding) (s : Span) : Prop :=
  ∃ f ∈ found, f.problem = .unterminatedGlobalMacro ∧ s.start = f.span.start + 1

theorem Construct.isSilent (q : Construct) :
    Pair.IsSilent q.opener ∧ Pair.IsSilent q.closer ∧ ∀ k ∈ q.tokens, Pair.IsSilent k := by
  rcases q with _ | ⟨family, _⟩
  · decide
  · cases family
    · exact ⟨⟨rfl, rfl⟩, ⟨rfl, rfl⟩, (by decide : ∀ k ∈ tokens (nested .localMacro 0), Pair.IsSilent k)⟩
    · exact ⟨⟨rfl, rfl⟩, ⟨rfl, rfl⟩, (by decide : ∀ k ∈ tokens (nested .compoundString 0), Pair.IsSilent k)⟩

theorem Lexer.start_next_of_dollar {l : Lexer} (h : l.kind = .dollar) :
    (l.next .globalMacro).ahead.start = l.ahead.start + 1 := by
  rw [start_eq_offset rfl, next_offset, Token.stop, text_of_dollar h]
  rfl

namespace Derivation

open Pair

variable {outer : Setting} {l l' : Lexer} {items : List Item}

theorem kind_bracedName {l m : Lexer} {is : List Item} (h : Reading.bracedName.leads l is m) :
    ∀ k ∈ Item.marks is, k.1 = .ident := by
  rcases h with ⟨hk, -, rfl, -⟩ | ⟨-, ⟨-, rfl, -⟩ | ⟨-, rfl, -⟩⟩
  · exact List.forall_mem_singleton.mpr hk
  · exact fun _ hk => by cases hk
  · exact fun _ hk => by cases hk

/-- The content of a construct is sealed off, but for the braces that are open in it. -/
theorem sealed_content (h : Derivation outer l items l') (hwithin : outer ≠ .line) :
    ∀ found, Item.findingsAll items ⊆ found → Sealed (IsOpenBrace found) (Item.marks items) := by
  have htoken : ∀ {found : List Finding} {l : Lexer} {kind : Kind}, l.kind = kind → IsSilent kind →
      Sealed (IsOpenBrace found) (Item.marks [l.item]) := by
    intro found l kind hl hk
    subst hl
    exact .silent (List.forall_mem_singleton.mpr hk)
  have hsilent : ∀ {l m : Lexer} {is : List Item}, Reading.bracedName.leads l is m → ∀ k ∈ Item.marks is,
      IsSilent k.1 := by
    intro l m is hname k hk
    rw [kind_bracedName hname k hk]
    exact ⟨rfl, rfl⟩
  induction h with
  | nil => exact fun _ _ => .nil
  | append _ _ ih ih' =>
    intro found hfound
    rw [Item.findingsAll_append, List.append_subset] at hfound
    rw [Item.marks_append]
    exact (ih hwithin found hfound.1).append (ih' hwithin found hfound.2)
  | @token outer l h =>
    rcases outer with _ | q
    · exact absurd rfl hwithin
    · exact fun _ _ => htoken rfl (q.isSilent.2.2 _ h)
  | word | missingName | node | problem | unknown | openComment | openBlock => exact absurd rfl hwithin
  | plainMacro hl hm hname =>
    intro found _
    rw [Item.marks_node]
    exact (htoken hl (by decide)).append (htoken hname (by decide))
  | @bracedMacro _ l b m is hl hb hbrace hname hm =>
    intro found _
    have hmarks : Item.marks (l.item :: b.item :: is ++ [m.item]) =
        Item.marks [l.item] ++ (.leftBrace, b.ahead.span) ::
        (Item.marks is ++ [(.rightBrace, m.ahead.span)]) := by
      rw [Item.marks_append, ← hbrace, ← hm]
      rfl
    rw [Item.marks_node, hmarks]
    exact (htoken hl (by decide)).append (.braces (hsilent hname))
  | @openMacro _ l b m is hl hb hbrace hname hm =>
    intro found hfound
    rw [Item.findingsAll_enclosed, Item.findingsAll_append, List.append_subset] at hfound
    -- the brace stays pending, and the finding tells where it is
    have hopen : IsOpenBrace found b.ahead.span :=
      ⟨_, hfound.2 (List.mem_singleton_self _), rfl, by subst hb; exact Lexer.start_next_of_dollar hl⟩
    have hbraces : Sealed (IsOpenBrace found) (Item.marks [b.item]) := by
      rw [Lexer.item, Item.marks_token, hbrace]
      exact .openBrace hopen
    rw [Item.marks_enclosed, Item.marks_append]
    exact (((htoken hl (by decide)).append hbraces).append (.silent (hsilent hname))).append .nil
  | @closed _ q l m is hq hl h hm ih =>
    intro found hfound
    rw [Item.findingsAll_node, Item.findingsAll_append, List.append_subset] at hfound
    rw [Item.marks_node, Item.marks_append]
    have hcontent := ih Setting.noConfusion found hfound.1
    exact ((htoken hl q.isSilent.1).append hcontent).append (htoken hm q.isSilent.2.1)
  | @unclosed _ q l m is hq hl h hm ih =>
    intro found hfound
    rw [Item.findingsAll_enclosed, Item.findingsAll_append, List.append_subset] at hfound
    rw [Item.marks_enclosed, Item.marks_append]
    have hcontent := ih Setting.noConfusion found hfound.1
    exact ((htoken hl q.isSilent.1).append hcontent).append .nil

end Derivation

namespace Construct.Occurs

variable {found : List Finding} {p : Place} {q : Construct} {l m : Lexer} {is tail : List Item}
  (h : Occurs found p.region q l m is tail)
include h

theorem marks_leaves :
    (p.leaves.map Place.mark).filter (·.1 != .whitespace) = Item.marks (l.item :: is ++ tail) := by
  obtain ⟨m', haccount⟩ := h.account
  have hregions : (p.leaves.map Place.region).filter (·.1.kind != .whitespace) =
      (Item.regions l (l.item :: is ++ tail)).filter (·.1.isLeaf) := by
    obtain ⟨tree, start, above⟩ := p
    obtain rfl : tree = _ := h.tree
    obtain rfl : start = Item.startOf l (l.item :: is ++ tail) := h.start
    rw [Place.map_region_leaves, Place.parts_node, List.filter_cons_of_neg (by simp [Tree.isLeaf]),
      Item.regions_eq, List.filter_comm]
  have hleaves := congrArg (List.map fun r : Tree × Span => (r.1.kind, r.2))
    (hregions.trans (Item.leaves_regions haccount))
  rw [List.filter_map, List.map_map, List.map_map] at hleaves
  rw [List.filter_map]
  exact hleaves

/-- The leaves of a construct are sealed off, but for the braces that are open in it. -/
theorem sealed_leaves : Pair.Sealed (IsOpenBrace found) (p.leaves.map Place.mark) := by
  have hopener : Pair.Sealed (IsOpenBrace found) (Item.marks [l.item]) :=
    .silent (List.forall_mem_singleton.mpr (by rw [h.opens]; exact q.isSilent.1))
  have htail : Pair.Sealed (IsOpenBrace found) (Item.marks tail) := by
    rcases h.ends with ⟨hm, ht⟩ | ⟨-, ht, -⟩ <;> rw [ht]
    · exact .silent (List.forall_mem_singleton.mpr (by rw [hm]; exact q.isSilent.2.1))
    · exact .nil
  refine .of_filter ?_
  rw [h.marks_leaves, Item.marks_append]
  exact (hopener.append (h.content.sealed_content Setting.noConfusion found h.inside)).append htail

end Construct.Occurs

end Dofile
