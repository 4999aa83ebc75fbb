import Dofile.Proofs.Statement

/-!
# The number of events

A rule logs no more than nine events to a token, so the positions of events fit in 32
bits wherever offsets do by far. The count is shared out: a reading leaves room for
some more events, which the node around it may use.
-/

namespace Dofile

def eventsPerToken : Nat := 9

namespace Item

def eventCount (items : List Item) : Nat := (eventsAll items).length

theorem eventCount_append (is js : List Item) : eventCount (is ++ js) = eventCount is + eventCount js := by
  simp [eventCount, eventsAll_append]

theorem eventCount_found (x : Finding) : eventCount [.found x] = 0 := rfl

theorem eventCount_node (kind : Kind) (items : List Item) : eventCount [.node kind items] = eventCount items + 2 := by
  simp [eventCount, eventsAll, scriptsAll, scripts, Script.eventsAll, Script.events]

theorem eventCount_enclosed (kind : Kind) (items : List Item) :
    eventCount [.enclosed kind items] = eventCount items + 4 := by
  simp [eventCount, eventsAll, scriptsAll, scripts, Script.eventsAll, Script.events]

end Item

/-- Every token that is taken is a part of the text that is passed. -/
theorem Account.length_takenAll {l l' : Lexer} {items : List Item} (h : Account l items l') :
    (Item.takenAll items).length + l'.rest.length ≤ l.rest.length := by
  induction h with
  | skip | relex | found => simp [Item.takenAll, Item.taken]
  | @take l h mode =>
    have := Lexer.after_length_lt h
    simp only [Lexer.item, Item.takenAll, Item.taken, List.append_nil, List.length_singleton, Lexer.next_rest]
    omega
  | @word l h kind hk mode =>
    have := Lexer.after_length_lt h.ne_eof
    simp only [Item.takenAll, Item.taken, List.append_nil, List.length_singleton, Lexer.next_rest]
    omega
  | node _ _ ih => simpa [Item.takenAll, Item.taken] using ih
  | enclosed _ _ ih => simpa [Item.takenAll, Item.taken] using ih
  | append _ _ ih ih' =>
    rw [Item.takenAll_append, List.length_append]
    omega

namespace Reading

def HasRoom (room : Nat) (R : Reading) : Prop :=
  ∀ ⦃l items l'⦄, R.leads l items l' → Item.eventCount items + room ≤ eventsPerToken * (Item.takenAll items).length

/-! ## Steps and combinations -/

theorem hasRoom_take (mode : Mode) : HasRoom 8 (take mode) := by
  intro l items l' h
  obtain ⟨-, rfl, -⟩ := h
  exact Nat.le_refl 9

theorem hasRoom_word (kind : Kind) (mode : Mode) (hk : kind ∈ Kind.wordLabels) : HasRoom 8 (word kind mode hk) := by
  intro l items l' h
  obtain ⟨-, rfl, -⟩ := h
  exact Nat.le_refl 9

theorem hasRoom_relex (mode : Mode) : HasRoom 0 (relex mode) := by
  intro l items l' h
  obtain ⟨rfl, -⟩ := h
  exact Nat.le_refl 0

theorem hasRoom_report (problem : Problem) : HasRoom 0 (report problem) := by
  intro l items l' h
  obtain ⟨rfl, -⟩ := h
  exact Nat.le_refl 0

theorem hasRoom_skip : HasRoom 0 skip := by
  intro l items l' h
  obtain ⟨rfl, -⟩ := h
  exact Nat.le_refl 0

section
variable {R S : Reading} {room more : Nat}

theorem HasRoom.mono (h : HasRoom room R) (hle : more ≤ room) : HasRoom more R :=
  fun _ _ _ hR => Nat.le_trans (Nat.add_le_add_left hle _) (h hR)

theorem HasRoom.seq (h : HasRoom room R) (h' : HasRoom more S) : HasRoom (room + more) (R.seq S) := by
  intro l items l' hRS
  obtain ⟨is, m, js, hR, hS, rfl⟩ := hRS
  have hfirst := h hR
  have hsecond := h' hS
  rw [Item.eventCount_append, Item.takenAll_append, List.length_append, Nat.mul_add]
  omega

theorem HasRoom.when (h : HasRoom room R) (c : Lexer → Prop) : HasRoom room (R.when c) := fun _ _ _ hR => h hR.2

theorem HasRoom.upTo (h : HasRoom room R) (c : Lexer → Prop) : HasRoom room (R.upTo c) := fun _ _ _ hR => h hR.1

theorem HasRoom.or (h : HasRoom room R) (h' : HasRoom more S) : HasRoom (min room more) (R.or S) :=
  fun _ _ _ hRS => hRS.elim (h.mono (Nat.min_le_left ..) ·) (h'.mono (Nat.min_le_right ..) ·)

theorem HasRoom.either (h : HasRoom room R) (h' : HasRoom more S) (c : Lexer → Prop) :
    HasRoom (min room more) (either c R S) := (h.when c).or (h'.when _)

theorem hasRoom_eat (kind : Kind) (mode : Mode) : HasRoom 0 (eat kind mode) :=
  (hasRoom_take mode).either hasRoom_skip _

theorem HasRoom.any {R : Nat → Reading} (h : ∀ n, HasRoom room (R n)) : HasRoom room (any R) := by
  intro l items l' hR
  obtain ⟨n, hR⟩ := hR
  exact h n hR

theorem HasRoom.many (h : HasRoom 0 R) (stops : Lexer → Prop) : HasRoom 0 (many stops R) := by
  intro l items l' hmany
  induction hmany with
  | done => exact Nat.le_refl 0
  | more _ first _ ih =>
    have hfirst := h first
    rw [Item.eventCount_append, Item.takenAll_append, List.length_append, Nat.mul_add]
    omega

theorem HasRoom.many_when (h : HasRoom room R) (stops : Lexer → Prop) :
    HasRoom room ((Reading.many stops R).when fun l => ¬ stops l) := by
  intro l items l' hmany
  obtain ⟨hne, hmany⟩ := hmany
  cases hmany with
  | done hd => exact absurd hd hne
  | more _ first rest =>
    have hfirst := h first
    have hrest := (h.mono (Nat.zero_le _)).many stops rest
    rw [Item.eventCount_append, Item.takenAll_append, List.length_append, Nat.mul_add]
    omega

theorem HasRoom.node (h : HasRoom (room + 2) R) {kind : Kind} (hk : kind.isNode = true) :
    HasRoom room (node kind R hk) := by
  intro l items l' hR
  obtain ⟨is, hR, rfl⟩ := hR
  have := h hR
  simp only [Item.eventCount_node, Item.takenAll, Item.taken, List.append_nil]
  omega

theorem HasRoom.givenUp (h : HasRoom (room + 4) R) {kind : Kind} (problem : Problem) (span : Lexer → Lexer → Span)
    (hk : kind.isNode = true) : HasRoom room (givenUp kind problem span R hk) := by
  intro l items l' hR
  obtain ⟨is, hR, -, rfl⟩ := hR
  have := h hR
  simp only [Item.eventCount_enclosed, Item.eventCount_append, Item.eventCount_found, Item.takenAll, Item.taken,
    Item.takenAll_append, List.append_nil]
  omega

theorem HasRoom.delimited (h : HasRoom 8 R) {kind closer : Kind} (problem : Problem) (span : Lexer → Lexer → Span)
    (outer : Mode) (hk : kind.isNode = true) : HasRoom 4 (delimited kind closer problem span outer R hk) := by
  have hclosed : HasRoom (4 + 2) ((R.upTo (·.kind = closer)).seq (take outer)) :=
    ((h.upTo _).seq (hasRoom_take outer)).mono (by decide)
  exact (hclosed.node hk).or (((h.upTo _).givenUp problem span hk).seq (hasRoom_relex outer))

theorem HasRoom.ended (h : HasRoom 8 R) {kind : Kind} (problem : Problem) (hk : kind.isNode = true)
    (htrailing : HasRoom 0 trailingComments) : HasRoom 4 (ended kind problem R hk) := by
  have hclosed : HasRoom (4 + 2) ((R.upTo (·.kind ≠ .eof)).seq
      ((word .endKeyword .statement Kind.endKeyword_mem_wordLabels).seq trailingComments)) :=
    ((h.upTo _).seq ((hasRoom_word _ _ _).seq htrailing)).mono (by decide)
  exact ((h.upTo _).givenUp problem _ hk).or (hclosed.node hk)

end

/-! ## Rules -/

theorem hasRoom_globalMacro (outer : Mode) : HasRoom 4 (globalMacro outer) := by
  have hname : HasRoom 0 bracedName := (hasRoom_take _).either ((hasRoom_report _).either hasRoom_skip _) _
  have hplain : HasRoom 14 (plainMacro outer) := (((hasRoom_take _).upTo _).seq (hasRoom_take _)).node _
  have hbraced : HasRoom 4 (bracedMacro outer) :=
    ((((hasRoom_take _).upTo _).seq ((hasRoom_take _).seq hname)).mono (by decide)).delimited _ _ _ _
  have hnameless : HasRoom 4 (namelessMacro outer) :=
    (((hasRoom_take _).upTo _).givenUp _ _ _).seq (hasRoom_relex _)
  exact (hplain.or (hbraced.or hnameless)).when _

theorem hasRoom_doubleString (outer : Mode) : HasRoom 4 (doubleString outer) := by
  have hitem : HasRoom 4 stringItem := (hasRoom_globalMacro _).either (hasRoom_take _) _
  exact (((hasRoom_take _).seq ((hitem.mono (Nat.zero_le _)).many _)).delimited _ _ _ _).when _

theorem hasRoom_constructWith {contents : Family → Nat → Reading} (h : ∀ family depth, HasRoom 0 (contents family depth))
    (family : Family) (depth : Nat) (outer : Mode) : HasRoom 4 (constructWith contents family depth outer) :=
  (((hasRoom_take _).seq (h family depth)).delimited _ _ _ _).when _

theorem hasRoom_contentsTo : ∀ (height : Nat) (family : Family) (depth : Nat),
    HasRoom 0 (contentsTo height family depth)
  | 0, _, _ => fun _ _ _ h => h.elim
  | height + 1, family, depth => by
    have hnested := hasRoom_constructWith (hasRoom_contentsTo height)
    have hitem : HasRoom 4 (contentItem (constructWith (contentsTo height)) family depth) :=
      (hnested _ _ _).either ((hnested _ _ _).either ((hasRoom_globalMacro _).either
        ((hasRoom_doubleString _).either (hasRoom_take _) _) _) _) _
    exact (hitem.mono (Nat.zero_le _)).many _

theorem hasRoom_construct (family : Family) (depth : Nat) (outer : Mode) : HasRoom 4 (construct family depth outer) :=
  .any fun height => hasRoom_constructWith (hasRoom_contentsTo height) family depth outer

theorem hasRoom_argument : HasRoom 4 argument := by
  have herror (problem : Problem) : HasRoom 6 (takeInError problem) := ((hasRoom_report _).seq (hasRoom_take _)).node _
  exact (hasRoom_doubleString _).either ((hasRoom_construct _ _ _).either ((hasRoom_construct _ _ _).either
    ((hasRoom_globalMacro _).either ((herror _).either ((herror _).either (hasRoom_take _) _) _) _) _) _) _

theorem hasRoom_arguments : HasRoom 0 arguments := (hasRoom_argument.mono (Nat.zero_le _)).many _

theorem hasRoom_trailingComments : HasRoom 0 trailingComments := (hasRoom_argument.mono (Nat.zero_le _)).many _

theorem hasRoom_remnant : HasRoom 0 remnant := by
  intro l items l' h
  rcases h with ⟨-, h⟩ | ⟨hne, _, ⟨_, m, js, ⟨rfl, rfl⟩, hmany, rfl⟩, rfl⟩
  · exact hasRoom_skip h
    -- the first argument leaves the room for the problem node
  · have hroom := hasRoom_argument.many_when _ ⟨hne, hmany⟩
    simp only [Item.eventCount_node, Item.eventCount_append, Item.eventCount_found, Item.takenAll, Item.taken,
      Item.takenAll_append, List.append_nil, List.nil_append]
    omega

theorem hasRoom_endOfLine : HasRoom 0 endOfLine :=
  hasRoom_trailingComments.seq (hasRoom_remnant.seq (hasRoom_eat _ _))

theorem hasRoom_nameWord : HasRoom 6 nameWord := (hasRoom_word _ _ _).node _

theorem hasRoom_name (problem : Problem) : HasRoom 0 (name problem) := hasRoom_nameWord.either (hasRoom_report _) _

theorem hasRoom_mataBlock : HasRoom 4 mataBlock := by
  have hopening : HasRoom 8 mataOpening := (hasRoom_word _ _ _).seq (hasRoom_eat _ _)
  have hbraces : HasRoom 4 mataBraces :=
    (((hopening.upTo _).seq ((hasRoom_take _).seq (hasRoom_eat _ _))).mono (by decide)).delimited _ _ _ _
  have hlines : HasRoom 4 mataLines :=
    ((hopening.upTo _).seq (((hasRoom_take _).mono (Nat.zero_le _)).many _)).ended _ _ hasRoom_trailingComments
  have hinline : HasRoom 14 mataInline := ((hopening.upTo _).seq (hasRoom_take _)).node _
  exact hbraces.or (hlines.or hinline)

theorem hasRoom_command : HasRoom 0 command := by
  have hfirst : HasRoom 6 commandPrefix := ((hasRoom_word _ _ _).seq (hasRoom_eat _ _)).node _
  have hhead : HasRoom 2 commandHead :=
    hasRoom_nameWord.either (hasRoom_argument.either (((hasRoom_report _).seq hasRoom_argument).node _) _) _
  exact (((hfirst.mono (Nat.zero_le _)).many _).seq (hhead.seq hasRoom_arguments)).node _

section
variable {line : Reading} (h : HasRoom 0 line)
include h

theorem hasRoom_programDefinition : HasRoom 4 (programDefinition line) := by
  have hhead : HasRoom 8 programHead := (hasRoom_word _ _ _).seq
    (((hasRoom_word _ _ _).either hasRoom_skip _).seq ((hasRoom_name _).seq hasRoom_arguments))
  exact (hhead.seq (h.many _)).ended _ _ hasRoom_trailingComments

theorem hasRoom_statement : HasRoom 0 (statement line) := by
  have hcomment : HasRoom 2 comment := hasRoom_argument.node _
  have hclose : HasRoom 6 blockClose := ((hasRoom_take _).seq hasRoom_arguments).node _
  have hdefinition : HasRoom 6 macroDefinition := (((hasRoom_word _ _ _).either (hasRoom_word _ _ _) _).seq
    ((hasRoom_name _).seq hasRoom_arguments)).node _
  have htemporary : HasRoom 6 temporaryDefinition := ((hasRoom_word _ _ _).seq
    ((hasRoom_skip.either (hasRoom_report _) _).seq
      (((hasRoom_nameWord.mono (Nat.zero_le _)).many _).seq hasRoom_trailingComments))).node _
  have hend : HasRoom 6 strayEnd :=
    ((hasRoom_report _).seq ((hasRoom_word _ _ _).seq hasRoom_trailingComments)).node _
  exact hcomment.either (hclose.either ((hasRoom_programDefinition h).either (hasRoom_mataBlock.either
    (hdefinition.either (htemporary.either (hend.either hasRoom_command _) _) _) _) _) _) _

theorem hasRoom_lineWith : HasRoom 0 (lineWith line) := by
  have hcomment : HasRoom 2 comment := hasRoom_argument.node _
  have hfull : HasRoom 0 (fullLine line) := ((hcomment.mono (Nat.zero_le _)).many _).seq
    ((hasRoom_skip.either (hasRoom_statement h) _).seq hasRoom_endOfLine)
  exact ((hasRoom_take _).either hfull _).when _

end

theorem hasRoom_line : ∀ depth : Nat, HasRoom 0 (line depth)
  | 0 => fun _ _ _ h => h.elim
  | depth + 1 => hasRoom_lineWith (hasRoom_line depth)

theorem hasRoom_lines (depth : Nat) : HasRoom 0 (lines depth) := (hasRoom_line depth).many _

end Reading

end Dofile
