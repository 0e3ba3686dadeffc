import Mathlib.Algebra.Order.Ring.Nat
import Mathlib.Data.List.Nodup
import ModelStreamer.Common.ResponseCode
import ModelStreamer.Lib.Text

/-!
# How many file system reads may be in flight

{lit}`RUNAI_STREAMER_FS_QUEUE_DEPTH` holds a default, and a number of its own for some types of
file systems.

Main results:

- Theorem {lit}`parse_iff`: the parser accepts exactly the grammar.
- Theorem {lit}`print_grammar`: what is printed is in the grammar.
- Theorem {lit}`fs_queue_depth_grammar`: the grammar, the round trip and the lookup together.
-/

namespace ModelStreamer
namespace Streamer

open Common Lib

/-! ## Texts -/

/-- The blanks that are trimmed. -/
def isBlank (c : Char) : Bool :=
  c == ' ' || c == '\t'

/-- {lit}`trimmed`. -/
def trimmed (text : List Char) : List Char :=
  trim isBlank text

/-- {lit}`lowered`, in the locale where only the letters A to Z have a lower case. -/
def lowered (text : List Char) : List Char :=
  text.map Char.toLower

/-- {lit}`positive_count`. -/
def positiveCount (text : List Char) : Except ResponseCode Nat :=
  if text = [] ∨ ¬ text.all Char.isDigit then .error .invalidParameterError
  else
    let value := Nat.ofDigitChars 10 text 0
    -- past 64 bits the conversion throws, and that is caught
    if 2 ^ 64 ≤ value then .error .invalidParameterError
    else if value = 0 ∨ 2 ^ 32 - 1 < value then .error .invalidParameterError
    else .ok value

/-! ## The parser -/

/-- {lit}`FsQueueDepth::Entry`. -/
structure QueueDepthEntry where
  type : List Char
  value : Nat
deriving DecidableEq, Repr

/-- {lit}`FsQueueDepth`. -/
structure FsQueueDepth where
  default : Nat
  entries : List QueueDepthEntry
deriving DecidableEq, Repr

/-- The variables of the loop of {lit}`parse`. -/
structure ParseState where
  first : Bool
  seen : List (List Char)
  out : FsQueueDepth

/-- The variables before the loop. -/
def ParseState.start : ParseState :=
  { first := true, seen := [], out := ⟨0, []⟩ }

/-- The body of the loop, for an element that was trimmed. -/
def parseElement (s : ParseState) (element : List Char) : Except ResponseCode ParseState :=
  if s.first then
    if '=' ∈ element then .error .invalidParameterError
    else
      match positiveCount element with
      | .error e => .error e
      | .ok value => .ok { s with first := false, out := { s.out with default := value } }
  else
    match findFrom '=' element 0 with
    | none => .error .invalidParameterError
    | some equals =>
        let type := lowered (trimmed (element.take equals))
        if type = [] then .error .invalidParameterError
        else if type ∈ s.seen then .error .invalidParameterError
        else
          match positiveCount (trimmed (element.drop (equals + 1))) with
          | .error e => .error e
          | .ok value =>
              .ok
                { s with
                  seen := s.seen ++ [type]
                  out := { s.out with entries := s.out.entries ++ [⟨type, value⟩] } }

/-- The loop of {lit}`parse`, over the positions of the text. -/
def parseFrom (whole : List Char) (begin : Nat) (s : ParseState) :
    Except ResponseCode FsQueueDepth :=
  if _ : begin ≤ whole.length then
    let comma := findFrom ',' whole begin
    let element := trimmed <|
      match comma with
      | none => whole.drop begin
      | some comma => (whole.drop begin).take (comma - begin)
    match parseElement s element with
    | .error e => .error e
    | .ok s =>
        match hcomma : comma with
        | none => .ok s.out
        | some comma => parseFrom whole (comma + 1) s
  else .ok s.out
termination_by whole.length + 1 - begin
decreasing_by
  obtain ⟨i, -, hi⟩ := Option.map_eq_some_iff.1 hcomma
  omega

/-- {lit}`FsQueueDepth::parse`. -/
def FsQueueDepth.parse (value : List Char) : Except ResponseCode FsQueueDepth :=
  let whole := trimmed value
  if whole = [] then .error .invalidParameterError else parseFrom whole 0 .start

/-- {lit}`FsQueueDepth::for_type`: the first entry whose type starts the name. -/
def FsQueueDepth.forType (depth : FsQueueDepth) (fsType : List Char) : Nat :=
  let type := lowered fsType
  match depth.entries.find? fun entry => type.take entry.type.length == entry.type with
  | some entry => entry.value
  | none => depth.default

/-- The output operator. -/
def FsQueueDepth.print (depth : FsQueueDepth) : List Char :=
  Nat.toDigits 10 depth.default ++ depth.entries.flatMap fun entry =>
    ',' :: ' ' :: (entry.type ++ '=' :: Nat.toDigits 10 entry.value)

/-! ## The grammar -/

/-- A decimal number from 1 to the largest {lit}`unsigned`. -/
structure IsCount (text : List Char) (value : Nat) : Prop where
  nonempty : text ≠ []
  digits : ∀ c ∈ text, c.isDigit
  value_eq : Nat.ofDigitChars 10 text 0 = value
  value_pos : 1 ≤ value
  value_le : value ≤ 2 ^ 32 - 1

/-- A type and a number around the first equals sign, with blanks around both. -/
def IsEntry (element : List Char) (entry : QueueDepthEntry) : Prop :=
  ∃ type value, element = type ++ '=' :: value ∧ '=' ∉ type ∧
    entry.type = lowered (trimmed type) ∧ entry.type ≠ [] ∧ IsCount (trimmed value) entry.value

/-- A default, and then entries for types that are all different. -/
def InGrammar (text : List Char) (depth : FsQueueDepth) : Prop :=
  ∃ first elements, (text.splitOn ',').map trimmed = first :: elements ∧
    IsCount first depth.default ∧ List.Forall₂ IsEntry elements depth.entries ∧
    (depth.entries.map QueueDepthEntry.type).Nodup

/-! ## What the parser accepts -/

/-- The only error. -/
theorem positiveCount_spec (text : List Char) :
    (∃ value, positiveCount text = .ok value ∧ IsCount text value) ∨
      (positiveCount text = .error .invalidParameterError ∧ ∀ value, ¬ IsCount text value) := by
  unfold positiveCount
  by_cases hdigits : text = [] ∨ ¬ text.all Char.isDigit
  · right
    refine ⟨if_pos hdigits, fun value hcount => ?_⟩
    cases hdigits with
    | inl hnil => exact hcount.nonempty hnil
    | inr hall => exact hall (List.all_eq_true.2 hcount.digits)
  · rw [if_neg hdigits]
    simp only
    split
    · right
      refine ⟨rfl, fun value hcount => ?_⟩
      have heq := hcount.value_eq
      have hle := hcount.value_le
      omega
    · split
      · right
        refine ⟨rfl, fun value hcount => ?_⟩
        have heq := hcount.value_eq
        have hpos := hcount.value_pos
        have hle := hcount.value_le
        omega
      · left
        have hnonempty : text ≠ [] := fun hnil => hdigits (.inl hnil)
        have hall : text.all Char.isDigit := by
          by_contra hall
          exact hdigits (.inr hall)
        exact ⟨_, rfl, hnonempty, List.all_eq_true.1 hall, rfl, by omega, by omega⟩

/-- The value of a text is determined. -/
theorem IsCount.unique {text : List Char} {m n : Nat} (hm : IsCount text m) (hn : IsCount text n) :
    m = n :=
  hm.value_eq.symm.trans hn.value_eq

/-- The first equals sign divides an element. -/
theorem isEntry_append {type value : List Char} {entry : QueueDepthEntry} (htype : '=' ∉ type) :
    IsEntry (type ++ '=' :: value) entry ↔ entry.type = lowered (trimmed type) ∧
      entry.type ≠ [] ∧ IsCount (trimmed value) entry.value := by
  constructor
  · rintro ⟨type', value', heq, htype', hlowered, hne, hcount⟩
    obtain ⟨rfl, rfl⟩ := append_separator_inj htype htype' heq
    exact ⟨hlowered, hne, hcount⟩
  · rintro ⟨hlowered, hne, hcount⟩
    exact ⟨type, value, rfl, htype, hlowered, hne, hcount⟩

/-- The first element gives the default. -/
theorem parseElement_first (s : ParseState) (hfirst : s.first = true) (element : List Char) :
    (∃ value, IsCount element value ∧ parseElement s element =
        .ok { s with first := false, out := { s.out with default := value } }) ∨
      (parseElement s element = .error .invalidParameterError ∧
        ∀ value, ¬ IsCount element value) := by
  unfold parseElement
  rw [if_pos hfirst]
  by_cases hequals : '=' ∈ element
  · right
    refine ⟨if_pos hequals, fun value hcount => ?_⟩
    have hdigit := hcount.digits '=' hequals
    exact absurd hdigit (by decide)
  · rw [if_neg hequals]
    cases positiveCount_spec element with
    | inl h =>
        obtain ⟨value, hok, hcount⟩ := h
        rw [hok]
        exact .inl ⟨value, hcount, rfl⟩
    | inr h =>
        rw [h.1]
        exact .inr ⟨rfl, h.2⟩

/-- Every other element gives an entry, unless its type was seen. -/
theorem parseElement_next (s : ParseState) (hfirst : s.first = false) (element : List Char) :
    (∃ entry, IsEntry element entry ∧ entry.type ∉ s.seen ∧ parseElement s element =
        .ok
          { s with
            seen := s.seen ++ [entry.type]
            out := { s.out with entries := s.out.entries ++ [entry] } }) ∨
      (parseElement s element = .error .invalidParameterError ∧
        ∀ entry, IsEntry element entry → entry.type ∈ s.seen) := by
  have hcases := findFrom_cases '=' element 0
  rw [List.drop_zero] at hcases
  unfold parseElement
  rw [if_neg (by rw [hfirst]; exact Bool.false_ne_true)]
  cases hcases with
  | inl h =>
      right
      rw [h.1]
      refine ⟨rfl, fun entry hentry => ?_⟩
      obtain ⟨type, value, rfl, -⟩ := hentry
      exact absurd (List.mem_append_right _ List.mem_cons_self) h.2
  | inr h =>
      obtain ⟨type, value, rfl, htype, hfind⟩ := h
      have htake : (type ++ '=' :: value).take (0 + type.length) = type := by
        rw [Nat.zero_add, List.take_left]
      have hdrop : (type ++ '=' :: value).drop (0 + type.length + 1) = value := by
        rw [Nat.zero_add, List.drop_append, List.drop_eq_nil_of_le (Nat.le_succ _)]
        simp
      rw [hfind]
      simp only [htake, hdrop, isEntry_append htype]
      split
      · rename_i hempty
        exact .inr ⟨rfl, fun entry hentry => absurd (hentry.1.trans hempty) hentry.2.1⟩
      · rename_i hne
        split
        · rename_i hseen
          exact .inr ⟨rfl, fun entry hentry => hentry.1.symm ▸ hseen⟩
        · rename_i hnew
          cases positiveCount_spec (trimmed value) with
          | inl h =>
              obtain ⟨count, hok, hcount⟩ := h
              rw [hok]
              exact .inl ⟨⟨lowered (trimmed type), count⟩, ⟨rfl, hne, hcount⟩, hnew, rfl⟩
          | inr h =>
              rw [h.1]
              exact .inr ⟨rfl, fun entry hentry => absurd hentry.2.2 (h.2 entry.value)⟩

/-- An element is read as one entry only. -/
theorem IsEntry.unique {element : List Char} {e e' : QueueDepthEntry} (h : IsEntry element e)
    (h' : IsEntry element e') : e = e' := by
  obtain ⟨type, value, rfl, htype, hlowered, -, hcount⟩ := h
  obtain ⟨hlowered', -, hcount'⟩ := (isEntry_append htype).1 h'
  cases e
  cases e'
  cases hlowered
  cases hlowered'
  cases hcount.unique hcount'
  rfl

/-! ## The loop -/

/-- The elements one after the other. -/
def parseElements (s : ParseState) : List (List Char) → Except ResponseCode FsQueueDepth
  | [] => .ok s.out
  | element :: elements =>
      match parseElement s element with
      | .error e => .error e
      | .ok s => parseElements s elements

/-- The loop over the positions reads the pieces between the commas. -/
theorem parseFrom_eq {whole : List Char} {begin : Nat} (hbegin : begin ≤ whole.length)
    (s : ParseState) :
    parseFrom whole begin s =
      parseElements s (((whole.drop begin).splitOn ',').map trimmed) := by
  induction hn : whole.length - begin using Nat.strong_induction_on generalizing begin s with
  | _ n ih =>
      rw [parseFrom, dif_pos hbegin]
      cases findFrom_cases ',' whole begin with
      | inl h =>
          -- the last piece
          rw [List.splitOn_eq_singleton h.2, List.map_singleton]
          simp only [parseElements, h.1]
          cases parseElement s (trimmed (whole.drop begin)) with
          | error e => rfl
          | ok s' =>
              simp only
              split
              · rfl
              · rename_i comma hcomma
                cases h.1.symm.trans hcomma
      | inr h =>
          obtain ⟨piece, rest, hdrop, hpiece, hfind⟩ := h
          have hlength := congrArg List.length hdrop
          rw [List.length_drop, List.length_append, List.length_cons] at hlength
          have hrest : whole.drop (begin + piece.length + 1) = rest := by
            rw [Nat.add_assoc, ← List.drop_drop, hdrop, List.drop_append,
              List.drop_eq_nil_of_le (Nat.le_succ _)]
            simp
          have htake : (whole.drop begin).take (begin + piece.length - begin) = piece := by
            rw [Nat.add_sub_cancel_left, hdrop, List.take_left]
          rw [hdrop, List.splitOn_append_cons_self_of_not_mem hpiece, List.map_cons, ← hdrop]
          simp only [parseElements, hfind, htake]
          cases parseElement s (trimmed piece) with
          | error e => rfl
          | ok s' =>
              simp only
              split
              · rename_i hcomma
                cases hfind.symm.trans hcomma
              · rename_i comma hcomma
                cases hfind.symm.trans hcomma
                rw [ih _ (by omega) (by omega) s' rfl, hrest]

/-- The elements after the default are entries, for types that were not seen before. -/
theorem parseElements_next {s : ParseState} (hfirst : s.first = false) (hseen : s.seen.Nodup)
    (elements : List (List Char)) :
    (∃ entries, List.Forall₂ IsEntry elements entries ∧
        (s.seen ++ entries.map QueueDepthEntry.type).Nodup ∧
        parseElements s elements = .ok { s.out with entries := s.out.entries ++ entries }) ∨
      (parseElements s elements = .error .invalidParameterError ∧
        ∀ entries, List.Forall₂ IsEntry elements entries →
          ¬ (s.seen ++ entries.map QueueDepthEntry.type).Nodup) := by
  induction elements generalizing s with
  | nil =>
      left
      refine ⟨[], .nil, ?_, ?_⟩
      · rw [List.map_nil, List.append_nil]
        exact hseen
      · rw [List.append_nil]
        rfl
  | cons element elements ih =>
      simp only [parseElements]
      rcases parseElement_next s hfirst element with
        ⟨entry, hentry, hnew, hok⟩ | ⟨herror, hall⟩
      · rw [hok]
        simp only
        have hseen' : (s.seen ++ [entry.type]).Nodup := by
          apply hseen.append (List.nodup_singleton _)
          rw [List.disjoint_singleton]
          exact hnew
        rcases @ih { s with
            seen := s.seen ++ [entry.type]
            out := { s.out with entries := s.out.entries ++ [entry] } } hfirst hseen' with
          ⟨entries, hentries, hnodup, hrest⟩ | ⟨hrest, hnone⟩
        · left
          refine ⟨entry :: entries, .cons hentry hentries, ?_, ?_⟩
          · simpa using hnodup
          · simpa using hrest
        · right
          refine ⟨hrest, fun entries hentries hnodup => ?_⟩
          cases hentries with
          | cons hhead htail =>
              rw [hhead.unique hentry] at hnodup
              apply hnone _ htail
              simpa using hnodup
      · right
        rw [herror]
        refine ⟨rfl, fun entries hentries hnodup => ?_⟩
        cases hentries with
        | @cons _ entry _ entries hhead htail =>
            apply List.disjoint_of_nodup_append hnodup (hall entry hhead)
            rw [List.map_cons]
            exact List.mem_cons_self

/-- The parser either reads the one value that the grammar gives the text, or throws. -/
theorem parse_cases (text : List Char) :
    (∃ depth, InGrammar text depth ∧ FsQueueDepth.parse text = .ok depth) ∨
      (FsQueueDepth.parse text = .error .invalidParameterError ∧
        ∀ depth, ¬ InGrammar text depth) := by
  have hpieces : (text.splitOn ',').map trimmed = ((trimmed text).splitOn ',').map trimmed :=
    (map_trim_splitOn_trim rfl).symm
  unfold FsQueueDepth.parse InGrammar
  simp only [hpieces]
  by_cases hempty : trimmed text = []
  · right
    refine ⟨if_pos hempty, ?_⟩
    rintro depth ⟨first, elements, hsplit, hcount, -⟩
    rw [hempty] at hsplit
    apply hcount.nonempty
    exact (List.cons.inj hsplit).1.symm
  · rw [if_neg hempty, parseFrom_eq (Nat.zero_le _), List.drop_zero]
    cases hsplit : ((trimmed text).splitOn ',').map trimmed with
    | nil => exact absurd (List.map_eq_nil_iff.1 hsplit) (List.splitOn_ne_nil _ _)
    | cons first elements =>
        simp only [parseElements]
        rcases parseElement_first .start rfl first with ⟨value, hcount, hok⟩ | ⟨herror, hnone⟩
        · rw [hok]
          simp only
          rcases @parseElements_next
              { ParseState.start with
                first := false
                out := { ParseState.start.out with default := value } } rfl List.nodup_nil
              elements with ⟨entries, hentries, hnodup, hrest⟩ | ⟨hrest, hnone⟩
          · left
            exact ⟨⟨value, entries⟩, ⟨first, elements, rfl, hcount, hentries, hnodup⟩, hrest⟩
          · right
            refine ⟨hrest, ?_⟩
            rintro depth ⟨first', elements', hcons, -, hentries, hnodup⟩
            cases hcons
            exact hnone _ hentries hnodup
        · right
          rw [herror]
          refine ⟨rfl, ?_⟩
          rintro depth ⟨first', elements', hcons, hcount, -⟩
          cases hcons
          exact hnone _ hcount

/-- Entries are determined by their elements. -/
theorem entries_unique {elements : List (List Char)} {entries entries' : List QueueDepthEntry}
    (h : List.Forall₂ IsEntry elements entries) (h' : List.Forall₂ IsEntry elements entries') :
    entries = entries' := by
  induction h generalizing entries' with
  | nil =>
      cases h'
      rfl
  | cons hhead _ ih =>
      cases h' with
      | cons hhead' htail' => rw [hhead.unique hhead', ih htail']

/-- The grammar gives a text one value. -/
theorem InGrammar.unique {text : List Char} {d d' : FsQueueDepth} (h : InGrammar text d)
    (h' : InGrammar text d') : d = d' := by
  obtain ⟨first, elements, hsplit, hcount, hentries, -⟩ := h
  obtain ⟨first', elements', hsplit', hcount', hentries', -⟩ := h'
  rw [hsplit] at hsplit'
  cases hsplit'
  cases d
  cases d'
  cases hcount.unique hcount'
  cases entries_unique hentries hentries'
  rfl

/-- The parser accepts exactly the grammar. -/
theorem parse_iff {text : List Char} {depth : FsQueueDepth} :
    FsQueueDepth.parse text = .ok depth ↔ InGrammar text depth := by
  rcases parse_cases text with ⟨found, hfound, hok⟩ | ⟨herror, hnone⟩
  · constructor
    · intro h
      cases hok.symm.trans h
      exact hfound
    · intro h
      rw [hok, hfound.unique h]
  · constructor
    · intro h
      cases herror.symm.trans h
    · intro h
      exact absurd h (hnone depth)

/-! ## The round trip -/

/-- The digits of a number that fits are a count. -/
theorem isCount_toDigits {value : Nat} (hpos : 1 ≤ value) (hle : value ≤ 2 ^ 32 - 1) :
    IsCount (Nat.toDigits 10 value) value where
  nonempty := Nat.toDigits_ne_nil
  digits := fun _ hc => Nat.isDigit_of_mem_toDigits (by decide) (by decide) hc
  value_eq := Nat.ofDigitChars_ten_toDigits
  value_pos := hpos
  value_le := hle

/-- Digits are neither blanks nor separators. -/
theorem of_mem_toDigits {value : Nat} {c : Char} (hc : c ∈ Nat.toDigits 10 value) :
    isBlank c = false ∧ c ≠ ',' ∧ c ≠ '=' := by
  have hdigit := Nat.isDigit_of_mem_toDigits (by decide) (by decide) hc
  refine ⟨?_, ?_, ?_⟩
  · by_contra hblank
    unfold isBlank at hblank
    simp only [Bool.not_eq_false, Bool.or_eq_true, beq_iff_eq] at hblank
    rcases hblank with rfl | rfl
    · exact absurd hdigit (by decide)
    · exact absurd hdigit (by decide)
  · rintro rfl
    exact absurd hdigit (by decide)
  · rintro rfl
    exact absurd hdigit (by decide)

/-- Digits are not trimmed. -/
theorem trimmed_toDigits (value : Nat) :
    trimmed (Nat.toDigits 10 value) = Nat.toDigits 10 value :=
  trim_of_ends (fun _ hx => (of_mem_toDigits (List.mem_of_mem_head? hx)).1)
    fun _ hx => (of_mem_toDigits (List.mem_of_mem_getLast? hx)).1

/-- The types that a parser returns: in lower case, trimmed, and without a separator. -/
structure IsType (type : List Char) : Prop where
  nonempty : type ≠ []
  lowered_eq : lowered type = type
  trimmed_eq : trimmed type = type
  no_comma : ',' ∉ type
  no_equals : '=' ∉ type

/-- A character that is not a letter is lowered only from itself. -/
theorem mem_lowered {c : Char} (hc : c.toNat < 97) {text : List Char} (h : c ∈ lowered text) :
    c ∈ text := by
  obtain ⟨d, hd, heq⟩ := List.mem_map.1 h
  rw [← eq_of_toLower_eq hc heq]
  exact hd

/-- Lower case makes no blanks. -/
theorem isBlank_toLower (c : Char) : isBlank c.toLower = isBlank c := by
  have hspace : c.toLower = ' ' ↔ c = ' ' :=
    ⟨eq_of_toLower_eq (by decide), fun h => by rw [h]; rfl⟩
  have htab : c.toLower = '\t' ↔ c = '\t' :=
    ⟨eq_of_toLower_eq (by decide), fun h => by rw [h]; rfl⟩
  rw [Bool.eq_iff_iff]
  simp [isBlank, hspace, htab]

/-- Trimmed text has nothing to trim in lower case. -/
theorem trimmed_lowered (text : List Char) :
    trimmed (lowered (trimmed text)) = lowered (trimmed text) := by
  obtain ⟨hhead, hlast⟩ := ends_trim isBlank text
  apply trim_of_ends
  · intro x hx
    unfold lowered at hx
    rw [List.head?_map] at hx
    obtain ⟨c, hc, rfl⟩ := Option.map_eq_some_iff.1 hx
    rw [isBlank_toLower]
    exact hhead c hc
  · intro x hx
    unfold lowered at hx
    rw [List.getLast?_map] at hx
    obtain ⟨c, hc, rfl⟩ := Option.map_eq_some_iff.1 hx
    rw [isBlank_toLower]
    exact hlast c hc

/-- The type of an element that has no comma. -/
theorem IsEntry.isType {element : List Char} {entry : QueueDepthEntry} (h : IsEntry element entry)
    (hcomma : ',' ∉ element) : IsType entry.type := by
  obtain ⟨type, value, rfl, htype, hlowered, hne, -⟩ := h
  have hsub : ∀ {c : Char}, c.toNat < 97 → c ∈ entry.type → c ∈ type := by
    intro c hc hmem
    rw [hlowered] at hmem
    exact mem_of_mem_trim (mem_lowered hc hmem)
  exact
    { nonempty := hne
      lowered_eq := by
        rw [hlowered]
        unfold lowered
        rw [List.map_map]
        apply List.map_congr_left
        intro c _
        exact toLower_toLower c
      trimmed_eq := by
        rw [hlowered]
        exact trimmed_lowered type
      no_comma := fun hmem =>
        hcomma (List.mem_append_left _ (hsub (by decide) hmem))
      no_equals := fun hmem => htype (hsub (by decide) hmem) }

/-- Every entry of a value that was parsed. -/
theorem InGrammar.entry_spec {text : List Char} {depth : FsQueueDepth} (h : InGrammar text depth)
    {entry : QueueDepthEntry} (hentry : entry ∈ depth.entries) :
    IsType entry.type ∧ 1 ≤ entry.value ∧ entry.value ≤ 2 ^ 32 - 1 := by
  obtain ⟨first, elements, hsplit, -, hentries, -⟩ := h
  obtain ⟨element, helement, hread⟩ :
      ∃ element ∈ elements, IsEntry element entry := by
    clear hsplit
    generalize depth.entries = entries at hentries hentry
    induction hentries with
    | nil => cases hentry
    | @cons element _ elements _ hhead _ ih =>
        cases List.mem_cons.1 hentry with
        | inl heq =>
            rw [← heq] at hhead
            exact ⟨element, List.mem_cons_self, hhead⟩
        | inr htail =>
            obtain ⟨other, hother, hread⟩ := ih htail
            exact ⟨other, List.mem_cons_of_mem _ hother, hread⟩
  have hpiece : element ∈ (text.splitOn ',').map trimmed := by
    rw [hsplit]
    exact List.mem_cons_of_mem first helement
  obtain ⟨piece, hmem, rfl⟩ := List.mem_map.1 hpiece
  refine ⟨hread.isType fun hcomma =>
    separator_notMem_of_mem_splitOn hmem (mem_of_mem_trim hcomma), ?_⟩
  obtain ⟨_, _, _, _, _, _, hcount⟩ := hread
  exact ⟨hcount.value_pos, hcount.value_le⟩

/-- An entry as it is printed is trimmed. -/
theorem trimmed_printed {type : List Char} (htype : IsType type) (value : Nat) :
    trimmed (' ' :: (type ++ '=' :: Nat.toDigits 10 value)) =
      type ++ '=' :: Nat.toDigits 10 value := by
  have hdigits : Nat.toDigits 10 value ≠ [] := Nat.toDigits_ne_nil
  have hends := ends_trim isBlank type
  rw [show trim isBlank type = type from htype.trimmed_eq] at hends
  calc trimmed (' ' :: (type ++ '=' :: Nat.toDigits 10 value))
      = trimmed (type ++ '=' :: Nat.toDigits 10 value) :=
        @trim_append_left _ isBlank _ [' '] (by simp [isBlank])
    _ = type ++ '=' :: Nat.toDigits 10 value := by
        apply trim_of_ends
        · intro x hx
          rw [List.head?_append_of_ne_nil _ htype.nonempty] at hx
          exact hends.1 x hx
        · intro x hx
          rw [List.getLast?_append_of_ne_nil _ (List.cons_ne_nil _ _),
            List.getLast?_cons_of_ne_nil hdigits] at hx
          exact (of_mem_toDigits (List.mem_of_mem_getLast? hx)).1

/-- What is printed is in the grammar again. -/
theorem print_grammar {text : List Char} {depth : FsQueueDepth} (h : InGrammar text depth) :
    InGrammar depth.print depth := by
  have hsplit : depth.print.splitOn ',' = Nat.toDigits 10 depth.default ::
      depth.entries.map fun entry => ' ' :: (entry.type ++ '=' :: Nat.toDigits 10 entry.value) := by
    apply splitOn_flatMap
    · exact fun hmem => (of_mem_toDigits hmem).2.1 rfl
    · intro entry hentry hmem
      have htype := (h.entry_spec hentry).1
      simp only [List.mem_cons, List.mem_append] at hmem
      rcases hmem with hspace | hname | hequals | hdigit
      · exact absurd hspace (by decide)
      · exact htype.no_comma hname
      · exact absurd hequals (by decide)
      · exact (of_mem_toDigits hdigit).2.1 rfl
  have hentries := fun entry hentry => @InGrammar.entry_spec text depth h entry hentry
  obtain ⟨_, _, _, hcount, _, hnodup⟩ := h
  refine ⟨Nat.toDigits 10 depth.default,
    depth.entries.map fun entry => entry.type ++ '=' :: Nat.toDigits 10 entry.value, ?_,
    isCount_toDigits hcount.value_pos hcount.value_le, ?_, hnodup⟩
  · rw [hsplit, List.map_cons, trimmed_toDigits, List.map_map]
    congr 1
    apply List.map_congr_left
    intro entry hentry
    exact trimmed_printed (hentries entry hentry).1 entry.value
  · rw [List.forall₂_map_left_iff, List.forall₂_same]
    intro entry hentry
    obtain ⟨htype, hpos, hle⟩ := hentries entry hentry
    rw [isEntry_append htype.no_equals, htype.trimmed_eq, htype.lowered_eq, trimmed_toDigits]
    exact ⟨rfl, htype.nonempty, isCount_toDigits hpos hle⟩

/-! ## The lookup -/

/-- The first entry whose type starts the name in lower case, or else the default. -/
theorem forType_spec (depth : FsQueueDepth) (name : List Char) :
    (∃ before entry after, depth.entries = before ++ entry :: after ∧
        entry.type <+: lowered name ∧ (∀ other ∈ before, ¬ other.type <+: lowered name) ∧
        depth.forType name = entry.value) ∨
      ((∀ entry ∈ depth.entries, ¬ entry.type <+: lowered name) ∧
        depth.forType name = depth.default) := by
  have hmatch : ∀ entry : QueueDepthEntry,
      ((lowered name).take entry.type.length == entry.type) = true ↔
        entry.type <+: lowered name := by
    intro entry
    rw [beq_iff_eq, List.prefix_iff_eq_take]
    exact eq_comm
  unfold FsQueueDepth.forType
  simp only
  cases hfind : depth.entries.find? fun entry =>
      (lowered name).take entry.type.length == entry.type with
  | none =>
      right
      refine ⟨fun entry hentry hprefix => ?_, rfl⟩
      exact List.find?_eq_none.1 hfind entry hentry ((hmatch entry).2 hprefix)
  | some entry =>
      left
      obtain ⟨hentry, before, after, hsplit, hbefore⟩ := List.find?_eq_some_iff_append.1 hfind
      refine ⟨before, entry, after, hsplit, (hmatch entry).1 hentry, fun other hother hprefix => ?_,
        rfl⟩
      have hnot := hbefore other hother
      rw [(hmatch other).2 hprefix] at hnot
      cases hnot

/--
The parser accepts exactly the grammar and throws one error otherwise, a value that was parsed
survives its own printing, and the lookup answers the first entry that matches.
-/
theorem fs_queue_depth_grammar :
    (∀ text depth, FsQueueDepth.parse text = .ok depth ↔ InGrammar text depth) ∧
    (∀ text e, FsQueueDepth.parse text = .error e → e = .invalidParameterError) ∧
    (∀ text depth, FsQueueDepth.parse text = .ok depth →
      FsQueueDepth.parse depth.print = .ok depth) ∧
    ∀ text depth name, FsQueueDepth.parse text = .ok depth →
      (∃ before entry after, depth.entries = before ++ entry :: after ∧
        entry.type <+: lowered name ∧ (∀ other ∈ before, ¬ other.type <+: lowered name) ∧
        depth.forType name = entry.value) ∨
      ((∀ entry ∈ depth.entries, ¬ entry.type <+: lowered name) ∧
        depth.forType name = depth.default) := by
  refine ⟨fun text depth => parse_iff, fun text e herror => ?_, fun text depth hok => ?_,
    fun text depth name _ => forType_spec depth name⟩
  · rcases parse_cases text with ⟨depth, -, hok⟩ | ⟨hthrown, -⟩
    · cases hok.symm.trans herror
    · cases hthrown.symm.trans herror
      rfl
  · exact parse_iff.2 (print_grammar (parse_iff.1 hok))

end Streamer
end ModelStreamer
