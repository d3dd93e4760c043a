import OdeModel.Proofs.Statement.Accounts

/-!
# Statements in another order

The statements of a block are read keyword by keyword, so it does not matter where their lines
stand among the others. Lines of exports, tables, Wiener processes and global conditions may
move when the lines of each kind and those that do not move stay in their order. Only the rows
of a process have to stand behind its head: no line may move to or from there, unless it is that
of an export, which is read before. All is read as it was then, and what fails is the same.
-/

namespace OdeModel

/-- The number of rows that stand behind a line. There are none unless it is the head of a
process and tells how many. -/
def Line.statedRows (line : Line) : Nat :=
  if line.isLedBy "markov".toList then
    (do
      let keyword ← Text.nextWord line.text 0
      let name ← Text.nextWord line.text keyword.stop
      let count ← Text.nextWord line.text name.stop
      readCount? count.text).getD 0
  else 0

/-- A line that stays where it is among the others, or one that moves. -/
structure PlacedLine where
  /-- The line itself. -/
  line : Line
  /-- The line is one of those that move. -/
  moves : Bool
  deriving DecidableEq

namespace PlacedLine

/-- The lines that do not move. -/
def staying (lines : List PlacedLine) : List PlacedLine := lines.filter fun placed => !placed.moves

/-- Tells for each line whether it is a row: one of as many lines behind the head of a process
as that states. The first `used` lines are rows. -/
def withRows : (used : Nat) → List PlacedLine → List (PlacedLine × Bool)
  | _, [] => []
  | used + 1, placed :: later => (placed, true) :: withRows used later
  | 0, placed :: later => (placed, false) :: withRows placed.line.statedRows later

/-- The lines that are left when the processes are read: no heads and no rows. -/
def leftBehind (used : Nat) (lines : List PlacedLine) : List PlacedLine :=
  ((withRows used lines).filter fun entry =>
    !entry.2 && !entry.1.line.isLedBy "markov".toList).map Prod.fst

/-- The lines that do not belong to an export. -/
def withoutExports (lines : List PlacedLine) : List PlacedLine :=
  lines.filter fun placed => !placed.line.isLedBy "export".toList

/-- The keywords of the statements that may move. -/
def movable : List Text := ["export", "table", "wiener", "global"].map String.toList

/-- Only lines of statements that may move do so, and they are no rows once the lines of the
exports are taken out. -/
structure CanMove (lines : List PlacedLine) : Prop where
  keyword : ∀ placed ∈ lines, placed.moves = true →
    ∃ keyword ∈ movable, placed.line.isLedBy keyword = true
  apart : ∀ entry ∈ withRows 0 (withoutExports lines), entry.2 = true → entry.1.moves = false

/-- The second list has the lines of the first one, and some of them have moved. Those of each
kind that may move are in the same order as before, and so are the lines that stay. -/
structure Rearranges (lines lines' : List PlacedLine) : Prop where
  canMove : CanMove lines
  canMove' : CanMove lines'
  kinds : ∀ keyword ∈ movable, (lines.filter fun placed => placed.line.isLedBy keyword) =
    lines'.filter fun placed => placed.line.isLedBy keyword
  others : staying lines = staying lines'

end PlacedLine

/-! ### Heads of processes -/

namespace Line

variable {line : Line} {draft recorded : Draft} {following : List Line} {used : Nat}

theorem markovRows_take (head : Line) (states count : Nat) (later : List Line) :
    head.markovRows states count (later.take count) = head.markovRows states count later := by
  induction count generalizing later with
  | zero => rfl
  | succ count ih =>
      cases later with
      | nil => rfl
      | cons row later => rw [List.take_succ_cons, markovRows, markovRows, ih]

/-- All but the entries of a process is read from its head. Then come as many rows as are
stated. -/
theorem exists_recordMarkov_eq (hled : line.isLedBy "markov".toList = true) (draft : Draft) :
    ∃ defined : Except ModelError (Draft × Text), ∀ following,
      line.recordMarkov following draft = (do
        let (draft, name) ← defined
        let entries ← line.markovRows line.statedRows line.statedRows following
        return (draft.push .markovs ⟨line.number, name, natText line.statedRows, entries⟩,
          line.statedRows)) := by
  unfold recordMarkov firstWord wordAfter statedRows
  rw [if_pos hled]
  cases Text.nextWord line.text 0 with
  | none => exact ⟨.error (line.error .unknownAssignment 0), fun _ => rfl⟩
  | some keyword =>
      simp only [Except.bind, bind, Option.bind]
      cases Text.nextWord line.text keyword.stop with
      | none => exact ⟨.error (line.error .unknownAssignment line.width), fun _ => rfl⟩
      | some name =>
          dsimp only
          cases Text.nextWord line.text name.stop with
          | none => exact ⟨.error (line.error .expectedNumber line.width), fun _ => rfl⟩
          | some count =>
              dsimp only
              cases hstates : (readCount? count.text).filter (0 < ·) with
              | none => exact ⟨.error (line.error .expectedNumber count.start), fun _ => rfl⟩
              | some states =>
                  rw [(Option.filter_eq_some_iff.1 hstates).1]
                  refine ⟨(draft.define line name.text name.start).map (·, name.text), ?_⟩
                  intro following
                  cases draft.define line name.text name.start <;> rfl

/-- The lines behind the stated rows do not count. -/
theorem recordMarkov_congr {following following' : List Line}
    (hled : line.isLedBy "markov".toList = true)
    (h : following.take line.statedRows = following'.take line.statedRows) :
    line.recordMarkov following draft = line.recordMarkov following' draft := by
  obtain ⟨defined, heq⟩ := exists_recordMarkov_eq hled draft
  rw [heq, heq, ← line.markovRows_take _ _ following, h, markovRows_take]

theorem recordMarkov_used (hled : line.isLedBy "markov".toList = true)
    (h : line.recordMarkov following draft = .ok (recorded, used)) : used = line.statedRows := by
  obtain ⟨defined, heq⟩ := exists_recordMarkov_eq hled draft
  rw [heq] at h
  obtain ⟨_, -, h⟩ := bind_eq_ok_iff.1 h
  obtain ⟨_, -, h⟩ := bind_eq_ok_iff.1 h
  exact (congrArg Prod.snd (pure_eq_ok_iff.1 h)).symm

end Line

/-! ### Rows -/

namespace PlacedLine

variable {lines lines' : List PlacedLine} {placed : PlacedLine} {used : Nat}

@[simp] theorem staying_cons_of_moves (h : placed.moves = true) :
    staying (placed :: lines) = staying lines :=
  List.filter_cons_of_neg (by simp [h])

@[simp] theorem staying_cons_of_stays (h : placed.moves = false) :
    staying (placed :: lines) = placed :: staying lines :=
  List.filter_cons_of_pos (by simp [h])

/-- No row moves, and no head of a process does. -/
structure KeepsProcesses (used : Nat) (lines : List PlacedLine) : Prop where
  rows : ∀ entry ∈ withRows used lines, entry.2 = true → entry.1.moves = false
  heads : ∀ placed ∈ lines, placed.moves = true → placed.line.isLedBy "markov".toList = false

theorem KeepsProcesses.row (h : KeepsProcesses (used + 1) (placed :: lines)) :
    placed.moves = false ∧ KeepsProcesses used lines := by
  obtain ⟨hrow, hrows⟩ := List.forall_mem_cons.1 h.rows
  exact ⟨hrow rfl, hrows, (List.forall_mem_cons.1 h.heads).2⟩

theorem KeepsProcesses.head (h : KeepsProcesses 0 (placed :: lines)) :
    (placed.line.isLedBy "markov".toList = true → placed.moves = false) ∧
      KeepsProcesses placed.line.statedRows lines := by
  obtain ⟨hhead, hheads⟩ := List.forall_mem_cons.1 h.heads
  refine ⟨fun hled => ?_, (List.forall_mem_cons.1 h.rows).2, hheads⟩
  rw [← Bool.not_eq_true]
  intro hmoves
  rw [hhead hmoves] at hled
  contradiction

theorem statedRows_of_not_led (h : placed.line.isLedBy "markov".toList = false) :
    placed.line.statedRows = 0 := by
  rw [Line.statedRows, h, if_neg Bool.false_ne_true]

theorem map_fst_withRows (used : Nat) (lines : List PlacedLine) :
    (withRows used lines).map Prod.fst = lines := by
  induction lines generalizing used with
  | nil => cases used <;> rfl
  | cons placed lines ih => cases used <;> rw [withRows, List.map_cons, ih]

/-- The rows of a process are those of the lines that stay. -/
theorem KeepsProcesses.take_staying (h : KeepsProcesses used lines) :
    (staying lines).take used = lines.take used := by
  induction lines generalizing used with
  | nil => rfl
  | cons placed lines ih =>
      cases used with
      | zero => rfl
      | succ used =>
          rw [staying_cons_of_stays h.row.1, List.take_succ_cons, List.take_succ_cons,
            ih h.row.2]

/-- A line that stays is a row just when it is one without the lines that move. -/
theorem KeepsProcesses.filter_stays (h : KeepsProcesses used lines) :
    (withRows used lines).filter (fun entry => !entry.1.moves) = withRows used (staying lines) := by
  induction lines generalizing used with
  | nil => cases used <;> rfl
  | cons placed lines ih =>
      cases used with
      | succ used =>
          rw [staying_cons_of_stays h.row.1, withRows, withRows,
            List.filter_cons_of_pos (by simp [h.row.1]), ih h.row.2]
      | zero =>
          cases hmoves : placed.moves with
          | true =>
              have hnone := statedRows_of_not_led (h.heads placed List.mem_cons_self hmoves)
              have hlater := h.head.2
              rw [hnone] at hlater
              rw [staying_cons_of_moves hmoves, withRows,
                List.filter_cons_of_neg (by simp [hmoves]), hnone, ih hlater]
          | false =>
              rw [staying_cons_of_stays hmoves, withRows, withRows,
                List.filter_cons_of_pos (by simp [hmoves]), ih h.head.2]

theorem KeepsProcesses.filter_moves (h : KeepsProcesses used lines) :
    (withRows used lines).filter (fun entry => entry.1.moves) =
      (lines.filter PlacedLine.moves).map (·, false) := by
  have hfalse : ∀ entry ∈ (withRows used lines).filter (fun entry => entry.1.moves),
      (entry.1, false) = entry := by
    rintro ⟨placed, isRow⟩ hmem
    obtain ⟨hentry, hmoves⟩ := List.mem_filter.1 hmem
    cases isRow with
    | false => rfl
    | true =>
        rw [h.rows _ hentry rfl] at hmoves
        contradiction
  nth_rewrite 2 [← map_fst_withRows used lines]
  rw [List.filter_map, List.map_map]
  exact ((List.map_congr_left hfalse).trans (List.map_id _)).symm

/-- A list is known from its elements of either kind when it is known which of them are of
which kind. -/
theorem eq_of_filter_eq {α β : Type} (p : β → Bool) (f : α → β) {l l' : List α}
    (hmap : l.map f = l'.map f) (hmine : l.filter (fun a => p (f a)) = l'.filter fun a => p (f a))
    (hothers : l.filter (fun a => !p (f a)) = l'.filter fun a => !p (f a)) : l = l' := by
  induction l generalizing l' with
  | nil => exact (List.map_eq_nil_iff.1 hmap.symm).symm
  | cons a l ih =>
      obtain ⟨b, l', rfl, hab, hrest⟩ := List.map_eq_cons_iff.1 hmap.symm
      have hp : p (f b) = p (f a) := by rw [hab]
      cases hkind : p (f a) with
      | true =>
          simp only [List.filter_cons, hp, hkind, Bool.not_true, Bool.false_eq_true, if_true,
            if_false, List.cons.injEq] at hmine hothers
          rw [hmine.1, ih hrest.symm hmine.2 hothers]
      | false =>
          simp only [List.filter_cons, hp, hkind, Bool.not_false, Bool.false_eq_true, if_true,
            if_false, List.cons.injEq] at hmine hothers
          rw [hothers.1, ih hrest.symm hmine hothers.2]

/-- Lines that are in the same order before the processes are read still are afterwards. -/
theorem KeepsProcesses.filter_leftBehind (h : KeepsProcesses used lines)
    (h' : KeepsProcesses used lines') (hstaying : staying lines = staying lines')
    (q : PlacedLine → Bool) (hq : lines.filter q = lines'.filter q) :
    (leftBehind used lines).filter q = (leftBehind used lines').filter q := by
  have hentries : (withRows used lines).filter (fun entry => q entry.1) =
      (withRows used lines').filter fun entry => q entry.1 := by
    refine eq_of_filter_eq PlacedLine.moves Prod.fst ?_ ?_ ?_
    · have hmap : ∀ lines, ((withRows used lines).filter fun entry => q entry.1).map Prod.fst =
          lines.filter q := fun lines => by
        nth_rewrite 2 [← map_fst_withRows used lines]
        rw [List.filter_map]
        rfl
      rw [hmap, hmap, hq]
    · have hmoving : ∀ {lines}, KeepsProcesses used lines →
          ((withRows used lines).filter fun entry => q entry.1).filter
            (fun entry => entry.1.moves) =
              ((lines.filter q).filter PlacedLine.moves).map (·, false) := fun h => by
        rw [List.filter_comm, h.filter_moves, List.filter_map, List.filter_comm _ q]
        rfl
      rw [hmoving h, hmoving h', hq]
    · have hstaying' : ∀ {lines}, KeepsProcesses used lines →
          ((withRows used lines).filter fun entry => q entry.1).filter
            (fun entry => !entry.1.moves) =
              (withRows used (PlacedLine.staying lines)).filter (fun entry => q entry.1) := by
        intro lines h
        rw [List.filter_comm, h.filter_stays]
      rw [hstaying' h, hstaying' h', hstaying]
  have hleft : ∀ lines, (leftBehind used lines).filter q =
      (((withRows used lines).filter fun entry => q entry.1).filter fun entry =>
        !entry.2 && !entry.1.line.isLedBy "markov".toList).map Prod.fst := fun lines => by
    rw [leftBehind, List.filter_map, List.filter_comm]
    rfl
  rw [hleft, hleft, hentries]

theorem leftBehind_row (used : Nat) (placed : PlacedLine) (lines : List PlacedLine) :
    leftBehind (used + 1) (placed :: lines) = leftBehind used lines := by
  rw [leftBehind, withRows, List.filter_cons_of_neg (by simp)]
  rfl

theorem leftBehind_head (h : placed.line.isLedBy "markov".toList = true) :
    leftBehind 0 (placed :: lines) = leftBehind placed.line.statedRows lines := by
  rw [leftBehind, withRows, List.filter_cons_of_neg (by simp only [h]; exact Bool.false_ne_true)]
  rfl

theorem leftBehind_other (h : placed.line.isLedBy "markov".toList = false) :
    leftBehind 0 (placed :: lines) = placed :: leftBehind 0 lines := by
  rw [leftBehind, withRows, List.filter_cons_of_pos (by simp only [h]; rfl),
    statedRows_of_not_led h]
  rfl

/-! ### Lines that move -/

theorem CanMove.keepsProcesses (h : CanMove lines) : KeepsProcesses 0 (withoutExports lines) where
  rows := h.apart
  heads := by
    intro placed hmem hmoves
    obtain ⟨keyword, hkeyword, hled⟩ := h.keyword placed (List.mem_filter.1 hmem).1 hmoves
    rw [← Bool.not_eq_true]
    intro hmarkov
    rw [Line.isLedBy, beq_iff_eq] at hled hmarkov
    obtain rfl : "markov".toList = keyword := Option.some.inj (hmarkov.symm.trans hled)
    exact absurd hkeyword (by decide)

/-- A line that is no export and moves has one of the other keywords that may move. -/
theorem CanMove.exists_keyword (h : CanMove lines) (hmem : placed ∈ withoutExports lines)
    (hmoves : placed.moves = true) :
    ∃ keyword ∈ movable.tail, placed.line.isLedBy keyword = true := by
  obtain ⟨hline, hexport⟩ := List.mem_filter.1 hmem
  obtain ⟨keyword, hkeyword, hled⟩ := h.keyword placed hline hmoves
  rcases List.mem_cons.1 hkeyword with rfl | hkeyword
  · rw [hled] at hexport
    contradiction
  · exact ⟨keyword, hkeyword, hled⟩

namespace Rearranges

theorem staying_withoutExports (h : Rearranges lines lines') :
    staying (withoutExports lines) = staying (withoutExports lines') := by
  have hcomm : ∀ lines, staying (withoutExports lines) = withoutExports (staying lines) :=
    fun lines => List.filter_comm _ _ lines
  rw [hcomm, hcomm, h.others]

theorem filter_kind (h : Rearranges lines lines') {keyword : Text} (hmem : keyword ∈ movable) :
    ((withoutExports lines).filter fun placed => placed.line.isLedBy keyword) =
      (withoutExports lines').filter fun placed => placed.line.isLedBy keyword := by
  have hcomm : ∀ lines, ((withoutExports lines).filter fun placed => placed.line.isLedBy keyword) =
      withoutExports (lines.filter fun placed => placed.line.isLedBy keyword) :=
    fun lines => List.filter_comm _ _ lines
  rw [hcomm, hcomm, h.kinds keyword hmem]

theorem filter_none (h : Rearranges lines lines') {q : PlacedLine → Bool}
    (hq : ∀ placed, q placed = true →
      ∀ keyword ∈ movable.tail, placed.line.isLedBy keyword = false) :
    (withoutExports lines).filter q = (withoutExports lines').filter q := by
  have hstay : ∀ {lines}, CanMove lines →
      (withoutExports lines).filter q = (PlacedLine.staying (withoutExports lines)).filter q := by
    intro lines hcan
    rw [PlacedLine.staying, List.filter_filter]
    refine List.filter_congr fun placed hmem => ?_
    cases hmoves : placed.moves with
    | false => simp
    | true =>
        obtain ⟨keyword, hkeyword, hled⟩ := hcan.exists_keyword hmem hmoves
        cases hother : q placed with
        | false => rfl
        | true =>
            rw [hq placed hother keyword hkeyword] at hled
            contradiction
  rw [hstay h.canMove, hstay h.canMove', h.staying_withoutExports]

theorem filter_leftBehind (h : Rearranges lines lines') {q : PlacedLine → Bool}
    (hq : (withoutExports lines).filter q = (withoutExports lines').filter q) :
    (leftBehind 0 (withoutExports lines)).filter q =
      (leftBehind 0 (withoutExports lines')).filter q :=
  h.canMove.keepsProcesses.filter_leftBehind h.canMove'.keepsProcesses h.staying_withoutExports
    q hq

end Rearranges

end PlacedLine

namespace Draft

open PlacedLine

/-! ### Passes over the lines -/

section Passes

variable {keyword : Text} {reader : BlockReader} {line : Line} {later : List Line} {draft : Draft}

theorem readBlocks_cons_led (h : line.isLedBy keyword = true) :
    readBlocks keyword reader 0 (line :: later) draft =
      reader line later draft >>= fun read => readBlocks keyword reader read.2 later read.1 := by
  rw [readBlocks, if_pos (by simpa [Line.isLedBy] using h)]

theorem readBlocks_cons_other (h : line.isLedBy keyword = false) :
    readBlocks keyword reader 0 (line :: later) draft =
      (readBlocks keyword reader 0 later draft).map fun read => (read.1, line :: read.2) := by
  rw [readBlocks, if_neg (by simpa [Line.isLedBy] using h)]
  cases readBlocks keyword reader 0 later draft <;> rfl

/-- A statement that takes no rows is read where it stands, and the other lines stay. -/
theorem readBlocks_alone (keyword : Text) (reader : Line → Draft → Except ModelError Draft)
    (lines : List Line) (draft : Draft) :
    readBlocks keyword (alone reader) 0 lines draft =
      ((lines.filter fun line => line.isLedBy keyword).foldlM
        (fun draft line => reader line draft) draft).map
          (·, lines.filter fun line => !line.isLedBy keyword) := by
  induction lines generalizing draft with
  | nil => rfl
  | cons line later ih =>
      cases hled : line.isLedBy keyword with
      | true =>
          simp only [readBlocks_cons_led hled, List.filter_cons, hled, Bool.not_true,
            Bool.false_eq_true, if_true, if_false, List.foldlM_cons, alone]
          cases reader line draft with
          | error e => rfl
          | ok read => exact ih read
      | false =>
          simp only [readBlocks_cons_other hled, List.filter_cons, hled, Bool.not_false,
            Bool.false_eq_true, if_true, if_false, ih]
          cases (later.filter fun line => line.isLedBy keyword).foldlM
            (fun draft line => reader line draft) draft <;> rfl

end Passes

/-- Reading the processes goes as it does without the lines that move, which are left. -/
theorem readBlocks_markov {used : Nat} {lines : List PlacedLine} (h : KeepsProcesses used lines)
    (draft : Draft) :
    readBlocks "markov".toList Line.recordMarkov used (lines.map PlacedLine.line) draft =
      (readBlocks "markov".toList Line.recordMarkov used ((staying lines).map PlacedLine.line)
        draft).map fun read => (read.1, (leftBehind used lines).map PlacedLine.line) := by
  induction lines generalizing used draft with
  | nil => cases used <;> rfl
  | cons placed lines ih =>
      cases used with
      | succ used =>
          obtain ⟨hstays, hlater⟩ := h.row
          rw [staying_cons_of_stays hstays, List.map_cons, List.map_cons, readBlocks, readBlocks,
            leftBehind_row, ih hlater]
      | zero =>
          obtain ⟨hstays, hlater⟩ := h.head
          cases hled : placed.line.isLedBy "markov".toList with
          | true =>
              have hread : placed.line.recordMarkov (lines.map PlacedLine.line) draft =
                  placed.line.recordMarkov ((staying lines).map PlacedLine.line) draft :=
                Line.recordMarkov_congr hled
                  (by rw [← List.map_take, ← List.map_take, hlater.take_staying])
              rw [staying_cons_of_stays (hstays hled), List.map_cons, List.map_cons,
                readBlocks_cons_led hled, readBlocks_cons_led hled, leftBehind_head hled, hread]
              cases hrecorded :
                placed.line.recordMarkov ((staying lines).map PlacedLine.line) draft with
              | error e => rfl
              | ok read =>
                  obtain ⟨recorded, used⟩ := read
                  obtain rfl := Line.recordMarkov_used hled hrecorded
                  exact ih hlater recorded
          | false =>
              rw [statedRows_of_not_led hled] at hlater
              rw [List.map_cons, readBlocks_cons_other hled, leftBehind_other hled, ih hlater]
              cases hmoves : placed.moves with
              | true =>
                  rw [staying_cons_of_moves hmoves]
                  cases readBlocks "markov".toList Line.recordMarkov 0
                    ((staying lines).map PlacedLine.line) draft <;> rfl
              | false =>
                  rw [staying_cons_of_stays hmoves, List.map_cons, List.map_cons,
                    readBlocks_cons_other hled]
                  cases readBlocks "markov".toList Line.recordMarkov 0
                    ((staying lines).map PlacedLine.line) draft <;> rfl

/-- Reads the statements that take no rows, keyword by keyword, and then every line that is
left. -/
def readAll : List (Text × (Line → Draft → Except ModelError Draft)) → List Line → Draft →
    Except ModelError Draft
  | [], lines, draft => recordAll lines draft
  | (keyword, reader) :: readers, lines, draft => do
      let (draft, lines) ← readBlocks keyword (alone reader) 0 lines draft
      readAll readers lines draft

/-- Only the order of the lines of each kind counts. -/
theorem readAll_congr {readers : List (Text × (Line → Draft → Except ModelError Draft))}
    {lines lines' : List Line}
    (hkinds : ∀ entry ∈ readers, (lines.filter fun line => line.isLedBy entry.1) =
      lines'.filter fun line => line.isLedBy entry.1)
    (hothers : (lines.filter fun line => readers.all fun entry => !line.isLedBy entry.1) =
      lines'.filter fun line => readers.all fun entry => !line.isLedBy entry.1)
    (draft : Draft) : readAll readers lines draft = readAll readers lines' draft := by
  induction readers generalizing lines lines' draft with
  | nil =>
      simp only [List.all_nil, List.filter_true] at hothers
      rw [hothers]
  | cons entry readers ih =>
      obtain ⟨keyword, reader⟩ := entry
      obtain ⟨hkind, hkinds⟩ := List.forall_mem_cons.1 hkinds
      rw [readAll, readAll, readBlocks_alone, readBlocks_alone, hkind]
      cases (lines'.filter fun line => line.isLedBy keyword).foldlM
        (fun draft line => reader line draft) draft with
      | error e => rfl
      | ok read =>
          refine ih (fun other hother => ?_) ?_ read
          · have hfilter := congrArg (List.filter fun line => !line.isLedBy keyword)
              (hkinds other hother)
            simpa only [List.filter_filter, Bool.and_comm] using hfilter
          · simpa only [List.filter_filter, List.all_cons, Bool.and_comm] using hothers

/-- The statements that are read when exports and processes are. -/
def laterReaders (settings : Settings) (files : FileReader) :
    List (Text × (Line → Draft → Except ModelError Draft)) :=
  [("table".toList, fun line => line.recordTable settings.tableDirectory files),
    ("wiener".toList, Line.recordWiener), ("global".toList, Line.recordGlobal)]

theorem map_fst_laterReaders (settings : Settings) (files : FileReader) :
    (laterReaders settings files).map Prod.fst = movable.tail := rfl

theorem ofLines_eq (settings : Settings) (files : FileReader) (lines : List Line) :
    ofLines settings files lines = (do
      let (draft, lines) ←
        readBlocks "export".toList (alone Line.recordExport) 0 lines (empty settings)
      let (draft, lines) ← readBlocks "markov".toList Line.recordMarkov 0 lines draft
      readAll (laterReaders settings files) lines draft) := rfl

/-- It does not matter where the lines of exports, tables, Wiener processes and global
conditions stand. When some of them move, the lines of each kind and all lines that do not move
stay in their order, and before and after it no line that moves is a row of a process once the
lines of exports are taken out, the same definitions and names are read, or reading fails
with the same error. -/
theorem ofLines_rearranged {settings : Settings} {files : FileReader}
    {lines lines' : List PlacedLine} (h : Rearranges lines lines') :
    ofLines settings files (lines.map PlacedLine.line) =
      ofLines settings files (lines'.map PlacedLine.line) := by
  have hexports : (lines.map PlacedLine.line).filter (fun line => line.isLedBy "export".toList) =
      (lines'.map PlacedLine.line).filter fun line => line.isLedBy "export".toList := by
    rw [List.filter_map, List.filter_map]
    exact congrArg (List.map PlacedLine.line) (h.kinds "export".toList (by decide))
  have hkept : ∀ lines : List PlacedLine,
      ((lines.map PlacedLine.line).filter fun line => !line.isLedBy "export".toList) =
        (withoutExports lines).map PlacedLine.line := fun lines => List.filter_map
  rw [ofLines_eq, ofLines_eq, readBlocks_alone, readBlocks_alone, hexports, hkept, hkept]
  cases ((lines'.map PlacedLine.line).filter fun line => line.isLedBy "export".toList).foldlM
    (fun draft line => Line.recordExport line draft) (empty settings) with
  | error e => rfl
  | ok draft =>
      change (readBlocks "markov".toList Line.recordMarkov 0 _ draft >>= _) =
        (readBlocks "markov".toList Line.recordMarkov 0 _ draft >>= _)
      rw [readBlocks_markov h.canMove.keepsProcesses, readBlocks_markov h.canMove'.keepsProcesses,
        h.staying_withoutExports]
      cases readBlocks "markov".toList Line.recordMarkov 0
        ((staying (withoutExports lines')).map PlacedLine.line) draft with
      | error e => rfl
      | ok read =>
          refine readAll_congr (fun entry hentry => ?_) ?_ read.1
          · have hmovable := List.mem_map_of_mem (f := Prod.fst) hentry
            rw [map_fst_laterReaders] at hmovable
            rw [List.filter_map, List.filter_map]
            exact congrArg (List.map PlacedLine.line)
              (h.filter_leftBehind (h.filter_kind (List.mem_of_mem_tail hmovable)))
          · rw [List.filter_map, List.filter_map]
            refine congrArg (List.map PlacedLine.line)
              (h.filter_leftBehind (h.filter_none fun placed hnone keyword hkeyword => ?_))
            rw [← map_fst_laterReaders settings files] at hkeyword
            obtain ⟨entry, hentry, rfl⟩ := List.mem_map.1 hkeyword
            simpa using List.all_eq_true.1 hnone entry hentry

/-- A Wiener process moves to the front and an export out of the rows of a process. -/
theorem ofLines_rearranged_wiener :
    Rearranges
      [⟨⟨1, "markov z 1".toList⟩, false⟩, ⟨⟨2, "export \x7ba\x7d \x7bz\x7d".toList⟩, true⟩,
        ⟨⟨3, "\x7ba\x7d".toList⟩, false⟩, ⟨⟨4, "wiener w".toList⟩, true⟩,
        ⟨⟨5, "par a=1".toList⟩, false⟩]
      [⟨⟨4, "wiener w".toList⟩, true⟩, ⟨⟨1, "markov z 1".toList⟩, false⟩,
        ⟨⟨3, "\x7ba\x7d".toList⟩, false⟩, ⟨⟨5, "par a=1".toList⟩, false⟩,
        ⟨⟨2, "export \x7ba\x7d \x7bz\x7d".toList⟩, true⟩] ∧
    ofLines { } (fun _ => .error .notFound)
        [⟨1, "markov z 1".toList⟩, ⟨2, "export \x7ba\x7d \x7bz\x7d".toList⟩,
          ⟨3, "\x7ba\x7d".toList⟩, ⟨4, "wiener w".toList⟩, ⟨5, "par a=1".toList⟩] =
      ofLines { } (fun _ => .error .notFound)
        [⟨4, "wiener w".toList⟩, ⟨1, "markov z 1".toList⟩, ⟨3, "\x7ba\x7d".toList⟩,
          ⟨5, "par a=1".toList⟩, ⟨2, "export \x7ba\x7d \x7bz\x7d".toList⟩] ∧
    (do
      let draft ← ofLines { } (fun _ => .error .notFound)
        [⟨4, "wiener w".toList⟩, ⟨1, "markov z 1".toList⟩, ⟨3, "\x7ba\x7d".toList⟩,
          ⟨5, "par a=1".toList⟩, ⟨2, "export \x7ba\x7d \x7bz\x7d".toList⟩]
      return (draft.scope.names, draft.symbols.get .markovs)) =
        .ok ([['z'], ['w'], ['a']], [⟨1, ['z'], ['1'], [['a']]⟩]) := by
  refine ⟨?rearranges, ofLines_rearranged ?rearranges, ?result⟩
  case rearranges =>
    refine ⟨⟨?_, ?_⟩, ⟨?_, ?_⟩, ?_, ?_⟩
    all_goals decide +kernel
  case result => decide +kernel

end Draft

end OdeModel
