import Tendermint.Consensus.WAL

/-!
The search for the mark of a height in the write-ahead log. The files are read
from the newest on, each of them to the end of the log. Damaged records are
skipped by decoding on behind what was read, so the search is right exactly for
the damage whose own length fields lead to the end of it: behind other damage a
mark may be read over.
-/

namespace Tendermint.Consensus

open Types List
open Framing (Framed Silent Leads)

inductive Record where
  | intact (data : Bytes)
  | damaged (bytes : Bytes)
  deriving DecidableEq, Repr

def TimedWALMessage.mark (message : TimedWALMessage) : Option Int :=
  match message.msg with
  | .endHeight height => some height
  | .other _ => none

def TimedWALMessage.IsMark (message : TimedWALMessage) : Prop := message.mark.isSome

section Log

variable (coding : Coding)

def Record.bytes : Record → Bytes
  | .intact data => coding.frame data
  | .damaged bytes => bytes

def Record.mark : Record → Option Int
  | .intact data => (coding.unmarshal data).bind TimedWALMessage.mark
  | .damaged _ => none

def logBytes (log : List Record) : Bytes := log.flatMap (Record.bytes coding)

def marks (log : List Record) : List Int := log.filterMap (Record.mark coding)

abbrev Unmarked (stretch : Bytes) : Prop :=
  Silent maxMsgSizeBytes coding.accept TimedWALMessage.IsMark stretch

/-- A log that the search can read: the damage that something follows is cut into
frames. -/
inductive Readable : List Record → Prop
  | nil : Readable []
  | intact {data : Bytes} {message : TimedWALMessage} {rest : List Record} (present : data ≠ [])
      (bounded : data.length ≤ maxMsgSizeBytes) (parsed : coding.unmarshal data = some message)
      (later : Readable rest) : Readable (.intact data :: rest)
  | damaged {bytes : Bytes} {rest : List Record} (framed : Framed maxMsgSizeBytes bytes)
      (unmarked : Unmarked coding bytes) (later : Readable rest) : Readable (.damaged bytes :: rest)
  | torn {bytes : Bytes} (unmarked : Unmarked coding bytes) : Readable [.damaged bytes]

variable {coding}

theorem next_intact {data : Bytes} {message : TimedWALMessage} (present : data ≠ [])
    (bounded : data.length ≤ maxMsgSizeBytes) (parsed : coding.unmarshal data = some message)
    (rest : Bytes) :
    Framing.next maxMsgSizeBytes coding.accept (coding.frame data ++ rest) =
      .item message rest := by
  have small : data.length < 2 ^ 32 := by
    unfold maxMsgSizeBytes maxMsgSize at bounded
    omega
  have sized : (Framing.putUint32 (coding.checksum data) ++
      Framing.putUint32 data.length).length = 8 := by
    simp [Framing.put_uint32_length]
  have length : Framing.lengthOf (Framing.putUint32 (coding.checksum data) ++
      Framing.putUint32 data.length) = data.length := by
    have drop : (Framing.putUint32 (coding.checksum data) ++
        Framing.putUint32 data.length).drop 4 = Framing.putUint32 data.length := by
      rw [← Framing.put_uint32_length (coding.checksum data), drop_left]
    rw [Framing.lengthOf, drop, Framing.uint32_put _ small]
  have checksum : Framing.uint32 ((Framing.putUint32 (coding.checksum data) ++
      Framing.putUint32 data.length).take 4) = coding.checksum data := by
    have take : (Framing.putUint32 (coding.checksum data) ++
        Framing.putUint32 data.length).take 4 = Framing.putUint32 (coding.checksum data) := by
      rw [← Framing.put_uint32_length (coding.checksum data), take_left]
    rw [take, Framing.uint32_put _ (coding.checksum data).isLt]
  rw [Coding.frame, append_assoc _ data, Framing.next_full rest sized length present bounded,
    checksum, Coding.accept, if_pos rfl, parsed]

end Log

namespace Search

variable {coding : Coding} {height : Int}

def SamePlan (s other : Search) : Prop :=
  other.older = s.older ∧ other.opened = s.opened ∧ other.lastHeightFound = s.lastHeightFound

theorem leads_reached (height : Int) {input place : Bytes}
    (leads : Leads maxMsgSizeBytes coding.accept TimedWALMessage.IsMark input place) (s : Search)
    (here : s.reader.bytes = input) :
    ∃ next, Loop.Reached (body coding height true) s next ∧ next.reader.bytes = place ∧
      SamePlan s next := by
  induction leads generalizing s with
  | refl input => exact ⟨s, Relation.ReflTransGen.refl, here, rfl, rfl, rfl⟩
  | skip skipped _ ih =>
    rw [← here] at skipped
    obtain ⟨cause, rest, decoded, left⟩ := GroupReader.decode_skipped skipped
    obtain ⟨next, reached, there, plan⟩ := ih { s with reader := rest } left
    refine ⟨next, reached.first ?_, there, plan⟩
    simp [body, decoded]
  | pass item other _ ih =>
    rename_i message _
    rw [← here] at item
    obtain ⟨rest, decoded, left⟩ := GroupReader.decode_item item
    obtain ⟨next, reached, there, plan⟩ := ih { s with reader := rest } left
    refine ⟨next, reached.first ?_, there, plan⟩
    cases kind : message.msg with
    | other payload => simp [body, decoded, kind]
    | endHeight marked =>
      simp [TimedWALMessage.IsMark, TimedWALMessage.mark, kind] at other

def AtEnd (coding : Coding) (s : Search) : Prop :=
  ∃ rest, s.reader.decode coding = (.error .eof, rest)

def FoundIn (coding : Coding) (height : Int) (log : List Record) (reader : GroupReader) : Prop :=
  ∃ before record after, log = before ++ record :: after ∧ record.mark coding = some height ∧
    reader.bytes = logBytes coding after

variable {log : List Record}

theorem FoundIn.later {reader : GroupReader} (found : FoundIn coding height log reader)
    (front : List Record) :
    FoundIn coding height (front ++ log) reader := by
  obtain ⟨before, record, after, rfl, marked, behind⟩ := found
  exact ⟨front ++ before, record, after, by simp, marked, behind⟩

theorem reads_log (height : Int) (readable : Readable coding log) (s : Search)
    (here : s.reader.bytes = logBytes coding log) :
    (∃ reader, Loop.Returns (body coding height true) s (.found reader) ∧
      FoundIn coding height log reader) ∨
    height ∉ marks coding log ∧ ∃ last, Loop.Reached (body coding height true) s last ∧
      last.older = s.older ∧ last.opened = s.opened ∧
      last.lastHeightFound = (marks coding log).getLast?.getD s.lastHeightFound ∧
      AtEnd coding last := by
  induction readable generalizing s with
  | nil =>
    have finished : Framing.next maxMsgSizeBytes coding.accept s.reader.bytes = .finished := by
      rw [here]
      rfl
    exact Or.inr ⟨by simp [marks], s, Relation.ReflTransGen.refl, rfl, rfl, rfl,
      GroupReader.decode_finished finished⟩
  | torn unmarked =>
    obtain ⟨place, leads, finished⟩ := unmarked.finishes
    obtain ⟨last, reached, there, older, opened, lastHeight⟩ :=
      leads_reached height leads s (by simpa [logBytes, Record.bytes] using here)
    rw [← there] at finished
    exact Or.inr ⟨by simp [marks, Record.mark], last, reached, older, opened, lastHeight,
      GroupReader.decode_finished finished⟩
  | damaged framed unmarked later ih =>
    rename_i bytes rest
    have leads := framed.leads unmarked (logBytes coding rest)
    obtain ⟨next, reached, there, older, opened, lastHeight⟩ :=
      leads_reached height leads s here
    rcases ih next there with ⟨reader, returns, found⟩ | ⟨absent, last, further, rest⟩
    · exact Or.inl ⟨reader, reached.returns returns, found.later [.damaged bytes]⟩
    · refine Or.inr ⟨absent, last, reached.trans further, ?_⟩
      rw [older, opened, lastHeight] at rest
      exact rest
  | intact present bounded parsed later ih =>
    rename_i data message rest
    have item := next_intact present bounded parsed (logBytes coding rest)
    have start : logBytes coding (.intact data :: rest) =
        coding.frame data ++ logBytes coding rest := rfl
    rw [← start, ← here] at item
    obtain ⟨after, decoded, left⟩ := GroupReader.decode_item item
    have isMark : Record.mark coding (.intact data) = message.mark := by
      simp [Record.mark, parsed]
    cases kind : message.msg with
    | other payload =>
      have unmarked : marks coding (.intact data :: rest) = marks coding rest := by
        simp [marks, isMark, TimedWALMessage.mark, kind]
      have goes : body coding height true s = .inr { s with reader := after } := by
        simp [body, decoded, kind]
      rw [unmarked]
      rcases ih { s with reader := after } left with
        ⟨reader, returns, found⟩ | ⟨absent, last, further, rest⟩
      · exact Or.inl ⟨reader, returns.first goes, found.later [.intact data]⟩
      · exact Or.inr ⟨absent, last, further.first goes, rest⟩
    | endHeight marked =>
      have first : Record.mark coding (.intact data) = some marked := by
        simp [isMark, TimedWALMessage.mark, kind]
      have marksAre : marks coding (.intact data :: rest) = marked :: marks coding rest := by
        simp [marks, first]
      by_cases same : marked = height
      · subst same
        refine Or.inl ⟨after, ⟨s, Relation.ReflTransGen.refl, ?_⟩, [], _, rest, rfl, first, left⟩
        simp [body, decoded, kind]
      · have goes : body coding height true s =
            .inr { s with reader := after, lastHeightFound := marked } := by
          simp [body, decoded, kind, same]
        rw [marksAre]
        rcases ih { s with reader := after, lastHeightFound := marked } left with
          ⟨reader, returns, found⟩ | ⟨absent, last, further, older, opened, lastHeight, ended⟩
        · exact Or.inl ⟨reader, returns.first goes, found.later [.intact data]⟩
        · refine Or.inr ⟨?_, last, further.first goes, older, opened, ?_, ended⟩
          · intro member
            rcases mem_cons.mp member with equal | listed
            · exact same equal.symm
            · exact absent listed
          · rw [lastHeight, getLast?_cons]
            rfl

theorem at_end_step {s : Search} (ended : AtEnd coding s) :
    body coding height true s =
      if 0 < s.lastHeightFound ∧ s.lastHeightFound < height then .inl .notFound
      else match s.older with
        | [] => .inl .notFound
        | file :: older =>
          .inr ⟨older, file :: s.opened, ⟨file, s.opened⟩, s.lastHeightFound⟩ := by
  obtain ⟨rest, decoded⟩ := ended
  cases older : s.older <;> simp [body, decoded, older]

end Search

section Result

variable (coding : Coding)

/-- The search ends; it finds the mark if there is one, and the reader goes on with
the records behind it to the end of the log. -/
def FindsEndHeight (newest : List Record) (older : List (List Record)) (height : Int) : Prop :=
  ∃ result, SearchesForEndHeight coding (logBytes coding newest) (older.map (logBytes coding))
      height true result ∧
    ((∃ reader, result = .found reader ∧
        Search.FoundIn coding height (older.reverse.flatten ++ newest) reader) ∨
      result = .notFound ∧ height ∉ marks coding (older.reverse.flatten ++ newest))

variable {coding} {height : Int}

variable {log : List Record} {older : List (List Record)} {damages : Set Bytes}

theorem above_last_mark (increasing : ((marks coding log).filter (0 < ·)).Pairwise (· < ·))
    {last : Int} (isLast : (marks coding log).getLast? = some last) (positive : 0 < last)
    (above : last < height) : height ∉ marks coding log := by
  obtain ⟨front, parts⟩ := getLast?_eq_some_iff.mp isLast
  rw [parts] at increasing ⊢
  intro member
  rcases mem_append.mp member with earlier | equal
  · rw [filter_append, pairwise_append] at increasing
    have below := increasing.2.2 height (by simpa using ⟨earlier, by omega⟩) last
      (by simpa using positive)
    omega
  · rw [mem_singleton.mp equal] at above
    exact absurd above (Int.lt_irrefl _)

theorem marks_append (log other : List Record) :
    marks coding (log ++ other) = marks coding log ++ marks coding other :=
  filterMap_append

theorem log_bytes_append (log other : List Record) :
    logBytes coding (log ++ other) = logBytes coding log ++ logBytes coding other :=
  flatMap_append

theorem searches_older {opened : List Record}
    (increasing :
      ((marks coding (older.reverse.flatten ++ opened)).filter (0 < ·)).Pairwise (· < ·))
    (readable : ∀ before after, older.reverse.flatten ++ opened = before ++ after →
      Readable coding after) (absent : height ∉ marks coding opened) {s : Search}
    (files : s.older = older.map (logBytes coding))
    (rest : s.opened.flatten = logBytes coding opened)
    (last : s.lastHeightFound = (marks coding opened).getLast?.getD (-1))
    (ended : Search.AtEnd coding s) :
    ∃ result, Loop.Returns (Search.body coding height true) s result ∧
      ((∃ reader, result = .found reader ∧
          Search.FoundIn coding height (older.reverse.flatten ++ opened) reader) ∨
        result = .notFound ∧ height ∉ marks coding (older.reverse.flatten ++ opened)) := by
  induction older generalizing opened s with
  | nil =>
    refine ⟨.notFound, ⟨s, Relation.ReflTransGen.refl, ?_⟩, Or.inr ⟨rfl, absent⟩⟩
    rw [Search.at_end_step ended, files]
    split <;> rfl
  | cons file older ih =>
    have shifted : (file :: older).reverse.flatten ++ opened =
        older.reverse.flatten ++ (file ++ opened) := by simp
    rw [shifted] at increasing readable ⊢
    by_cases passed : 0 < s.lastHeightFound ∧ s.lastHeightFound < height
    · refine ⟨.notFound, ⟨s, Relation.ReflTransGen.refl, ?_⟩, Or.inr ⟨rfl, ?_⟩⟩
      · rw [Search.at_end_step ended, if_pos passed]
      -- what was seen last is the last mark of the log
      · cases seen : (marks coding opened).getLast? with
        | none =>
          rw [seen] at last
          simp only [Option.getD_none] at last
          omega
        | some mark =>
          refine above_last_mark increasing ?_ (last ▸ passed.1) (last ▸ passed.2)
          rw [← append_assoc, marks_append, getLast?_append, seen]
          rfl
    · have opens : Search.body coding height true s = .inr ⟨older.map (logBytes coding),
          logBytes coding file :: s.opened, ⟨logBytes coding file, s.opened⟩,
          s.lastHeightFound⟩ := by
        rw [Search.at_end_step ended, if_neg passed, files]
        rfl
      have whole : (GroupReader.mk (logBytes coding file) s.opened).bytes =
          logBytes coding (file ++ opened) := by
        rw [log_bytes_append, ← rest]
        rfl
      rcases Search.reads_log height (readable older.reverse.flatten (file ++ opened) rfl)
          ⟨older.map (logBytes coding), logBytes coding file :: s.opened,
            ⟨logBytes coding file, s.opened⟩, s.lastHeightFound⟩ whole with
        ⟨reader, returns, found⟩ | ⟨stillAbsent, state, reached, olderIs, openedIs, seen, atEnd⟩
      · exact ⟨_, returns.first opens, Or.inl ⟨reader, rfl, found.later _⟩⟩
      · have lastIs : state.lastHeightFound =
            (marks coding (file ++ opened)).getLast?.getD (-1) := by
          rw [seen, last, marks_append, getLast?_append]
          cases (marks coding opened).getLast? with
          | none => rfl
          | some mark => rfl
        obtain ⟨result, returns, outcome⟩ := ih increasing readable stillAbsent
          olderIs (by rw [openedIs]; exact whole) lastIs atEnd
        exact ⟨result, (reached.first opens).returns returns, outcome⟩

/-- A log that was written with damage of the given forms. The damage holds no mark
of its own; the last record may be torn in any way. -/
structure Written (coding : Coding) (damages : Set Bytes) (log : List Record) : Prop where
  intact : ∀ data, .intact data ∈ log →
    data ≠ [] ∧ data.length ≤ maxMsgSizeBytes ∧ (coding.unmarshal data).isSome
  damaged : ∀ before bytes after, log = before ++ .damaged bytes :: after →
    Unmarked coding bytes ∧ (after ≠ [] → bytes ∈ damages)
  increasing : ((marks coding log).filter (0 < ·)).Pairwise (· < ·)

theorem Written.readable (written : Written coding damages log)
    (framed : ∀ bytes ∈ damages, Framed maxMsgSizeBytes bytes) (before after : List Record)
    (parts : log = before ++ after) : Readable coding after := by
  induction after generalizing before with
  | nil => exact .nil
  | cons record rest ih =>
  have later : Readable coding rest := ih (before ++ [record]) (by simp [parts])
  cases record with
  | intact data =>
    obtain ⟨present, bounded, parsed⟩ := written.intact data (by simp [parts])
    obtain ⟨message, decoded⟩ := Option.isSome_iff_exists.mp parsed
    exact .intact present bounded decoded later
  | damaged bytes =>
    obtain ⟨unmarked, listed⟩ := written.damaged before bytes rest parts
    cases rest with
    | nil => exact .torn unmarked
    | cons next rest => exact .damaged (framed bytes (listed (by simp))) unmarked later

theorem Written.finds {newest : List Record}
    (written : Written coding damages (older.reverse.flatten ++ newest))
    (framed : ∀ bytes ∈ damages, Framed maxMsgSizeBytes bytes) :
    FindsEndHeight coding newest older height := by
  have readable := written.readable framed
  rcases Search.reads_log height (readable older.reverse.flatten newest rfl)
      (Search.start (logBytes coding newest) (older.map (logBytes coding)))
      (by simp [Search.start, GroupReader.bytes]) with
    ⟨reader, returns, found⟩ | ⟨absent, state, reached, files, opened, last, ended⟩
  · exact ⟨_, returns, Or.inl ⟨reader, rfl, found.later _⟩⟩
  · obtain ⟨result, returns, outcome⟩ := searches_older written.increasing readable
      absent files (by simp [opened, Search.start]) last ended
    exact ⟨result, reached.returns returns, outcome⟩

end Result

section Misread

def nineHeader : Bytes := Framing.putUint32 0 ++ Framing.putUint32 9

/-- Only this data decodes, to the mark of height one. -/
def oneMark (data : Bytes) : Coding where
  checksum := fun _ => 0
  unmarshal := fun found => if found = data then some ⟨0, .endHeight 1⟩ else none

def windows (bytes : Bytes) : List Bytes :=
  bytes.tails.map fun place => ((place ++ nineHeader).drop 8).take 9

theorem exists_unlisted {listed : List Bytes} (short : listed.length < 2 ^ 64) :
    ∃ tail : Bytes, tail.length = 8 ∧ 255 :: tail ∉ listed := by
  by_contra all
  push Not at all
  let data : Fin (2 ^ 64) → { bytes // bytes ∈ listed.toFinset } := fun value =>
    ⟨255 :: Wire.putFixed 8 value, mem_toFinset.mpr (all _ (Wire.put_fixed_length 8 value))⟩
  have injective : Function.Injective data := by
    intro first second same
    have tails : Wire.putFixed 8 first = Wire.putFixed 8 second :=
      (List.cons.inj (congrArg Subtype.val same)).2
    have decoded := Wire.get_put_fixed 8 first [] first.isLt
    rw [tails, Wire.get_put_fixed 8 second [] second.isLt] at decoded
    exact Fin.ext (Prod.mk.inj (Option.some.inj decoded)).1.symm
  have counted := Fintype.card_le_of_injective data injective
  rw [Fintype.card_fin, Fintype.card_coe] at counted
  have atMost := toFinset_card_le listed
  omega

variable {data : Bytes}

variable {input tail : Bytes} {damages : Set Bytes}

theorem one_mark_item (sized : data.length = 9) {rest : Bytes} {message : TimedWALMessage}
    (item : Framing.next maxMsgSizeBytes (oneMark data).accept input = .item message rest) :
    17 ≤ input.length ∧ (input.drop 8).take 9 = data := by
  obtain ⟨checksum, length, whole, accepted⟩ := Framing.next_item item
  have same : (input.drop 8).take length = data := by
    by_contra other
    have parsed := Coding.accept_some accepted
    simp only [oneMark, if_neg other] at parsed
    cases parsed
  have nine : length = 9 := by
    rw [← sized, ← same, length_take, length_drop]
    omega
  rw [nine] at whole same
  exact ⟨whole, same⟩

theorem short_silent (sized : data.length = 9) (short : input.length < 17) :
    Unmarked (oneMark data) input := by
  intro place message rest leads item
  have whole := (one_mark_item sized item).1
  have fits := leads.suffix.length_le
  omega

variable {bytes place : Bytes}

theorem window_listed (inside : place <:+ bytes) :
    ((place ++ nineHeader).drop 8).take 9 ∈ windows bytes :=
  mem_map.mpr ⟨place, (mem_tails _ _).mpr inside, rfl⟩

theorem unlisted_unmarked (sized : data.length = 9) (unlisted : data ∉ windows bytes) :
    Unmarked (oneMark data) bytes := by
  intro place message rest leads item
  obtain ⟨whole, same⟩ := one_mark_item sized item
  have listed := window_listed leads.suffix
  rw [drop_append_of_le_length (by omega),
    take_append_of_le_length (by rw [length_drop]; omega), same] at listed
  exact absurd listed unlisted

theorem unlisted_overread (sized : tail.length = 8) (unlisted : 255 :: tail ∉ windows bytes)
    (inside : place <:+ bytes) (nonempty : place ≠ []) (message : TimedWALMessage) (rest : Bytes) :
    Framing.next maxMsgSizeBytes (oneMark (255 :: tail)).accept
      (place ++ (nineHeader ++ 255 :: tail)) ≠ .item message rest := by
  intro item
  have same := (one_mark_item (by simp [sized]) item).2
  have positive := length_pos_of_ne_nil nonempty
  have header : nineHeader.length = 8 := rfl
  have length : ((place ++ nineHeader).drop 8).length = place.length := by
    rw [length_drop, length_append, header, Nat.add_sub_cancel]
  rw [← append_assoc, drop_append_of_le_length (by rw [length_append, header]; omega)] at same
  by_cases near : place.length ≤ 8
  -- the data would start in the header of the mark, which has no such byte
  · have start : (place ++ nineHeader).drop 8 = nineHeader.drop (8 - place.length) := by
      rw [drop_append, drop_of_length_le near, nil_append]
    cases first : (place ++ nineHeader).drop 8 with
    | nil =>
      rw [first] at length
      exact absurd length (Nat.ne_of_lt positive)
    | cons byte others =>
    rw [first] at same
    have inHeader : byte ∈ nineHeader := by
      apply mem_of_mem_drop (i := 8 - place.length)
      rw [← start, first]
      exact mem_cons_self
    have spelled : nineHeader = [0, 0, 0, 0, 0, 0, 0, 9] := rfl
    rw [spelled, (List.cons.inj same).1] at inHeader
    exact absurd inHeader (by decide)
  · rw [take_append_of_le_length (by omega)] at same
    exact unlisted (same ▸ window_listed inside)

theorem unframed_finishes (sized : tail.length = 8) (unlisted : 255 :: tail ∉ windows bytes)
    (inside : place <:+ bytes) (unframed : ¬ Framed maxMsgSizeBytes place) :
    ∃ last, Leads maxMsgSizeBytes (oneMark (255 :: tail)).accept TimedWALMessage.IsMark
        (place ++ (nineHeader ++ 255 :: tail)) last ∧
      Framing.next maxMsgSizeBytes (oneMark (255 :: tail)).accept last = .finished := by
  induction bound : place.length using Nat.strongRecOn generalizing place with
  | _ size ih =>
    have nonempty : place ≠ [] := by
      rintro rfl
      exact unframed .nil
    have skips := unlisted_overread sized unlisted inside nonempty
    rcases Framing.next_unframed (oneMark (255 :: tail)).accept unframed
        (nineHeader ++ 255 :: tail) (by simp) with
      ⟨later, stillUnframed, suffix, shorter, goes⟩ | finished | ⟨beyond, short, goes⟩
    · rcases goes with skipped | ⟨message, item⟩
      · obtain ⟨last, leads, finished⟩ :=
          ih later.length (bound ▸ shorter) (suffix.trans inside) stillUnframed rfl
        exact ⟨last, .skip skipped leads, finished⟩
      · exact absurd item (skips message _)
    · exact ⟨_, .refl _, finished⟩
    · rcases goes with skipped | ⟨message, item⟩
      · have nine : (255 :: tail).length = 9 := by rw [length_cons, sized]
        have length : (nineHeader ++ 255 :: tail).length = 17 := by
          rw [length_append, nine]
          rfl
        obtain ⟨last, leads, finished⟩ := (short_silent nine (length ▸ short)).finishes
        exact ⟨last, .skip skipped leads, finished⟩
      · exact absurd item (skips message _)

theorem one_mark_marks (bytes data : Bytes) :
    marks (oneMark data) [.damaged bytes, .intact data] = [1] := by
  have first : Record.mark (oneMark data) (.intact data) = some 1 := by
    simp [Record.mark, oneMark, TimedWALMessage.mark]
  have none : Record.mark (oneMark data) (.damaged bytes) = none := rfl
  rw [marks, filterMap_cons_none none, filterMap_cons_some first, filterMap_nil]

theorem one_mark_written (listed : bytes ∈ damages) (sized : data.length = 9)
    (unmarked : Unmarked (oneMark data) bytes) :
    Written (oneMark data) damages [.damaged bytes, .intact data] := by
  constructor
  · intro found member
    have same : found = data := by simpa using member
    subst same
    refine ⟨?_, ?_, by simp [oneMark]⟩
    · rw [← length_pos_iff]
      omega
    · rw [sized]
      decide
  · intro before other after parts
    have member : Record.damaged other ∈ [Record.damaged bytes, .intact data] := by
      rw [parts]
      simp
    have same : other = bytes := by simpa using member
    subst same
    exact ⟨unmarked, fun _ => listed⟩
  · rw [one_mark_marks]
    simp

theorem unframed_lost (listed : bytes ∈ damages) (sized : bytes.length < 2 ^ 63)
    (unframed : ¬ Framed maxMsgSizeBytes bytes) :
    ∃ coding newest, Written coding damages newest ∧ ¬ FindsEndHeight coding newest [] 1 := by
  have short : (windows bytes).length < 2 ^ 64 := by
    simp only [windows, length_map, length_tails]
    omega
  obtain ⟨tail, eight, unlisted⟩ := exists_unlisted short
  have nine : (255 :: tail).length = 9 := by rw [length_cons, eight]
  refine ⟨oneMark (255 :: tail), [.damaged bytes, .intact (255 :: tail)],
    one_mark_written listed nine (unlisted_unmarked nine unlisted), ?_⟩
  rintro ⟨result, returns, outcome⟩
  obtain ⟨last, leads, finished⟩ :=
    unframed_finishes eight unlisted (suffix_refl bytes) unframed
  have start : (Search.start (logBytes (oneMark (255 :: tail))
      [.damaged bytes, .intact (255 :: tail)]) []).reader.bytes =
        bytes ++ (nineHeader ++ 255 :: tail) := by
    simp [Search.start, GroupReader.bytes, logBytes, Record.bytes, Coding.frame, oneMark,
      nineHeader, eight]
  obtain ⟨state, reached, there, older, _, unseen⟩ := Search.leads_reached 1 leads _ start
  rw [← there] at finished
  have gives : Loop.Returns (Search.body (oneMark (255 :: tail)) 1 true) _ .notFound :=
    ⟨state, reached, by
      rw [Search.at_end_step (GroupReader.decode_finished finished), older, unseen]
      rfl⟩
  rcases outcome with ⟨reader, found, _⟩ | ⟨_, absent⟩
  · rw [found] at returns
    cases returns.unique gives
  · exact absent (by rw [reverse_nil, flatten_nil, nil_append, one_mark_marks]; simp)

end Misread

/-- The search finds the mark of every height in every log, whatever the messages
are, exactly if the damage is cut into frames by its own length fields. -/
theorem end_height_search_iff (damages : Set Bytes)
    (sized : ∀ bytes ∈ damages, bytes.length < 2 ^ 63) :
    (∀ coding newest older height, Written coding damages (older.reverse.flatten ++ newest) →
      FindsEndHeight coding newest older height) ↔
      ∀ bytes ∈ damages, Framed maxMsgSizeBytes bytes := by
  constructor
  · intro finds bytes listed
    by_contra unframed
    obtain ⟨coding, newest, written, lost⟩ :=
      unframed_lost listed (sized bytes listed) unframed
    exact lost (finds coding newest [] 1 written)
  · intro framed coding newest older height written
    exact written.finds framed

theorem zeroed_header_skipped :
    FindsEndHeight (oneMark (List.replicate 9 7)) [.intact (List.replicate 9 7)]
      [[.damaged (List.replicate 8 0)]] 1 := by
  apply (end_height_search_iff {List.replicate 8 0} ?_).mpr ?_
  · exact one_mark_written rfl rfl (short_silent rfl (by decide))
  · rintro bytes rfl
    decide
  · rintro bytes rfl
    have framed : Framed maxMsgSizeBytes (List.replicate 8 0 ++ []) :=
      .bare rfl (Or.inr rfl) .nil
    exact framed

/-- The length of a record of one byte was changed to eighteen: the mark that follows
is read as its data. -/
theorem covered_mark_lost :
    Written (oneMark (List.replicate 9 7)) {[0, 0, 0, 0, 0, 0, 0, 18, 5]}
        [.damaged [0, 0, 0, 0, 0, 0, 0, 18, 5], .intact (List.replicate 9 7)] ∧
      1 ∈ marks (oneMark (List.replicate 9 7))
        [.damaged [0, 0, 0, 0, 0, 0, 0, 18, 5], .intact (List.replicate 9 7)] ∧
      SearchesForEndHeight (oneMark (List.replicate 9 7)) (logBytes (oneMark (List.replicate 9 7))
        [.damaged [0, 0, 0, 0, 0, 0, 0, 18, 5], .intact (List.replicate 9 7)]) [] 1 true
          .notFound := by
  refine ⟨one_mark_written rfl rfl (short_silent rfl (by decide)), ?_, ?_⟩
  · rw [one_mark_marks]
    exact mem_singleton_self 1
  · exact (Loop.run_iff_returns _ _).mp ⟨2, by decide⟩

end Tendermint.Consensus
