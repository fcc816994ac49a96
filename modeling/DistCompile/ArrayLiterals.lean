import DistCompile.Coordinator

/-!
PostgreSQL array literals (`pg_array` and `parse_pg_array` in `src/db.cpp`).

Every column of the bulk inserts of `submit` travels as one literal, and `unnest` turns the
columns back into rows. The literals carry any text: `parse_pg_array` reads back what `pg_array`
writes, and so does PostgreSQL (`PgReads`), which also knows NULL elements.
-/

namespace DistCompile

open DistCompile.Graph

/-! ### Writing -/

/-- The inner loop of `pg_array`: quotes and backslashes get a backslash. -/
def escapeItem (item : Str) : Str := item.flatMap fun c => if c = '"' ∨ c = '\\' then ['\\', c] else [c]

/-- One round of the outer loop of `pg_array`, behind the comma. -/
def arrayItem (empty_is_null : Bool) (item : Str) : Str :=
  if empty_is_null ∧ item = [] then "NULL".toList else '"' :: (escapeItem item ++ ['"'])

/-- `pg_array`. -/
def pgArray (items : List Str) (empty_is_null : Bool := false) : Str :=
  '{' :: ([','].intercalate (items.map (arrayItem empty_is_null)) ++ ['}'])

/-! ### Reading -/

/-- The variables of `parse_pg_array`. -/
structure ArrayScan where
  out : List Str := []
  cur : Str := []
  quoted : Bool := false
  inItem : Bool := false
deriving DecidableEq, Repr

/-- The loop of `parse_pg_array` over the characters between the first and the last. -/
def scanArray : Str → ArrayScan → ArrayScan
  | [], s => s
  | c :: rest, s =>
      if s.quoted then
        if c = '\\' then
          match rest with
          | [] => { s with cur := s.cur ++ [c] }
          | next :: rest => scanArray rest { s with cur := s.cur ++ [next] }
        else if c = '"' then scanArray rest { s with quoted := false }
        else scanArray rest { s with cur := s.cur ++ [c] }
      else if c = '"' then scanArray rest { s with quoted := true, inItem := true }
      else if c = ',' then scanArray rest { s with out := s.out ++ [s.cur], cur := [], inItem := false }
      else scanArray rest { s with cur := s.cur ++ [c], inItem := true }

/-- `parse_pg_array`. -/
def parsePgArray (lit : Str) : List Str :=
  if lit.length < 2 then []
  else
    let s := scanArray lit.tail.dropLast {}
    if s.inItem ∨ s.cur ≠ [] ∨ 2 < lit.length then s.out ++ [s.cur] else s.out

/-! ### The grammar of PostgreSQL -/

/-- An element of an array literal. -/
inductive ArrayElement where
  | null
  /-- characters other than quote and backslash, and characters behind a backslash -/
  | quoted (pieces : List (Char ⊕ Char))
deriving DecidableEq, Repr

namespace ArrayElement

/-- A character that needs no backslash. -/
def Plain : ArrayElement → Prop
  | null => True
  | quoted pieces => ∀ c, .inl c ∈ pieces → c ≠ '"' ∧ c ≠ '\\'

def pieceSpelling : Char ⊕ Char → Str
  | .inl c => [c]
  | .inr c => ['\\', c]

def pieceValue : Char ⊕ Char → Char
  | .inl c | .inr c => c

def spelling : ArrayElement → Str
  | null => "NULL".toList
  | quoted pieces => '"' :: (pieces.flatMap pieceSpelling ++ ['"'])

def value : ArrayElement → Option Str
  | null => none
  | quoted pieces => some (pieces.map pieceValue)

end ArrayElement

/-- PostgreSQL reads array literals as it documents them: quoted elements literally, with
backslashes taken off, and an unquoted `NULL` as the null element. -/
def PgReads (read : Str → Option (List (Option Str))) : Prop :=
  ∀ elements : List ArrayElement, (∀ e ∈ elements, e.Plain) →
    read ('{' :: ([','].intercalate (elements.map ArrayElement.spelling) ++ ['}'])) =
      some (elements.map ArrayElement.value)

/-! ### What is written reads back -/

section Scan

variable {rest : Str} {s : ArrayScan}

theorem scanArray_escape (quoted : s.quoted = true) (c : Char) :
    scanArray ('\\' :: c :: rest) s = scanArray rest { s with cur := s.cur ++ [c] } := by
  rw [scanArray.eq_def]
  simp [quoted]

theorem scanArray_plain (quoted : s.quoted = true) {c : Char} (quote : c ≠ '"') (backslash : c ≠ '\\') :
    scanArray (c :: rest) s = scanArray rest { s with cur := s.cur ++ [c] } := by
  rw [scanArray.eq_def]
  simp [quoted, quote, backslash]

theorem scanArray_close (quoted : s.quoted = true) :
    scanArray ('"' :: rest) s = scanArray rest { s with quoted := false } := by
  rw [scanArray.eq_def]
  simp [quoted]

theorem scanArray_open (outside : s.quoted = false) :
    scanArray ('"' :: rest) s = scanArray rest { s with quoted := true, inItem := true } := by
  rw [scanArray.eq_def]
  simp [outside]

theorem scanArray_comma (outside : s.quoted = false) :
    scanArray (',' :: rest) s = scanArray rest { s with out := s.out ++ [s.cur], cur := [], inItem := false } := by
  rw [scanArray.eq_def]
  simp [outside]

theorem escapeItem_cons (c : Char) (item : Str) :
    escapeItem (c :: item) = (if c = '"' ∨ c = '\\' then ['\\', c] else [c]) ++ escapeItem item := rfl

/-- The escaped characters of an item. -/
theorem scanArray_item (item : Str) (quoted : s.quoted = true) :
    scanArray (escapeItem item ++ '"' :: rest) s = scanArray rest { s with cur := s.cur ++ item, quoted := false } := by
  induction item generalizing s with
  | nil =>
    rw [List.append_nil]
    exact scanArray_close quoted
  | cons c item ih =>
    have later : scanArray (escapeItem item ++ '"' :: rest) { s with cur := s.cur ++ [c] } =
        scanArray rest { s with cur := s.cur ++ c :: item, quoted := false } := by
      refine (ih (s := { s with cur := s.cur ++ [c] }) quoted).trans ?_
      simp
    rw [escapeItem_cons, List.append_assoc]
    split
    · exact (scanArray_escape quoted c).trans later
    · rename_i plain
      rw [not_or] at plain
      exact (scanArray_plain quoted plain.1 plain.2).trans later

end Scan

theorem arrayItem_false (item : Str) : arrayItem false item = '"' :: (escapeItem item ++ ['"']) := by
  simp [arrayItem]

/-- The items of a literal, from the start of one on. -/
theorem scanArray_items (item : Str) (items out : List Str) :
    scanArray ([','].intercalate ((item :: items).map (arrayItem false))) { out } =
      { out := out ++ (item :: items).dropLast, cur := (item :: items).getLast (List.cons_ne_nil _ _), inItem := true } := by
  induction items generalizing item out with
  | nil =>
    have split : [','].intercalate ([item].map (arrayItem false)) = '"' :: (escapeItem item ++ '"' :: []) := by
      simp [arrayItem_false]
    rw [split, scanArray_open rfl, scanArray_item item rfl]
    simp [scanArray]
  | cons next items ih =>
    have split : [','].intercalate ((item :: next :: items).map (arrayItem false)) = '"' :: (escapeItem item ++
        '"' :: ',' :: [','].intercalate ((next :: items).map (arrayItem false))) := by
      simp [arrayItem_false, List.intercalate_cons_cons]
    rw [split, scanArray_open rfl, scanArray_item item rfl, scanArray_comma rfl]
    refine (ih next (out ++ [item])).trans ?_
    simp

/-- `parse_pg_array` reads what `pg_array` writes. -/
theorem parsePgArray_pgArray (items : List Str) : parsePgArray (pgArray items) = items := by
  have body : (pgArray items).tail.dropLast = [','].intercalate (items.map (arrayItem false)) := by
    simp [pgArray]
  cases items with
  | nil => rfl
  | cons item items =>
    rw [parsePgArray, body, scanArray_items, if_neg (by simp [pgArray])]
    simp only [true_or, if_true, List.nil_append]
    exact List.dropLast_append_getLast _

/-- The element that an item is written as. -/
def itemElement (empty_is_null : Bool) (item : Str) : ArrayElement :=
  if empty_is_null ∧ item = [] then .null
  else .quoted (item.map fun c => if c = '"' ∨ c = '\\' then .inr c else .inl c)

theorem itemElement_plain (empty_is_null : Bool) (item : Str) : (itemElement empty_is_null item).Plain := by
  rw [itemElement]
  split
  · trivial
  · intro c member
    obtain ⟨d, -, same⟩ := List.mem_map.mp member
    split at same
    · cases same
    · rename_i plain
      cases same
      exact not_or.mp plain

theorem itemElement_spelling (empty_is_null : Bool) (item : Str) :
    (itemElement empty_is_null item).spelling = arrayItem empty_is_null item := by
  rw [itemElement, arrayItem]
  split
  · rfl
  · rw [ArrayElement.spelling, escapeItem, List.flatMap_map]
    congr 3
    funext c
    by_cases special : c = '"' ∨ c = '\\'
    · simp only [if_pos special, ArrayElement.pieceSpelling]
    · simp only [if_neg special, ArrayElement.pieceSpelling]

theorem itemElement_value (empty_is_null : Bool) (item : Str) :
    (itemElement empty_is_null item).value = if empty_is_null ∧ item = [] then none else some item := by
  rw [itemElement]
  split
  · rfl
  · rw [ArrayElement.value, List.map_map]
    refine congrArg some ((List.map_congr_left fun c _ => ?_).trans (List.map_id item))
    by_cases special : c = '"' ∨ c = '\\'
    · simp only [Function.comp_apply, if_pos special, ArrayElement.pieceValue, id_eq]
    · simp only [Function.comp_apply, if_neg special, ArrayElement.pieceValue, id_eq]

/-- PostgreSQL reads it, with the null element for an empty item that is sent so. -/
theorem PgReads.pgArray {read : Str → Option (List (Option Str))} (reads : PgReads read) (items : List Str)
    (empty_is_null : Bool) : read (pgArray items empty_is_null) =
      some (items.map fun item => if empty_is_null ∧ item = [] then none else some item) := by
  have spelled := reads (items.map (itemElement empty_is_null)) fun e member => by
    obtain ⟨item, -, rfl⟩ := List.mem_map.mp member
    exact itemElement_plain empty_is_null item
  rw [List.map_map, List.map_map, show ArrayElement.spelling ∘ itemElement empty_is_null = arrayItem empty_is_null from
    funext (itemElement_spelling empty_is_null), show ArrayElement.value ∘ itemElement empty_is_null = _ from
    funext (itemElement_value empty_is_null)] at spelled
  exact spelled

/-! ### The bulk inserts of `submit` -/

/-- `unnest` of several arrays: row `i` has their `i`-th elements, and NULL where an array is shorter. -/
def unnest (columns : List (List (Option Str))) : List (List (Option Str)) :=
  (List.range ((columns.map List.length).foldl max 0)).map fun i => columns.map fun column => column[i]?.join

/-- A column of a bulk insert: whether empty texts are sent as NULL, and the text of a row. -/
structure Column (Row : Type) where
  emptyIsNull : Bool := false
  text : Row → Str

/-- The parameter that carries a column. -/
def Column.literal {Row : Type} (column : Column Row) (rows : List Row) : Str :=
  pgArray (rows.map column.text) column.emptyIsNull

/-- What a row has in the column. -/
def Column.value {Row : Type} (column : Column Row) (row : Row) : Option Str :=
  if column.emptyIsNull ∧ column.text row = [] then none else some (column.text row)

/-- The rows that the database makes of the parameters. -/
def bulkRows {Row : Type} (read : Str → Option (List (Option Str))) (columns : List (Column Row)) (rows : List Row) :
    Option (List (List (Option Str))) :=
  ((columns.map fun column => column.literal rows).mapM read).map unnest

/-- The text of a state. -/
def TaskState.text : TaskState → Str
  | .waiting => "waiting".toList
  | .ready => "ready".toList
  | .running => "running".toList
  | .done => "done".toList
  | .cached => "cached".toList
  | .failed => "failed".toList

/-- `$3` to `$16` of `insert_tasks`. -/
def taskColumns (rank part : Nat → Int) (row : Nat → Resolved) : List (Column (TaskSpec × Nat)) :=
  [{ text := fun (_, id) => decimal id },
    { text := fun (ts, _) => decimal ts.kind },
    { text := fun (ts, _) => ts.name },
    { emptyIsNull := true, text := fun (_, id) => (row id).key },
    { emptyIsNull := true, text := fun (ts, _) => ts.input },
    { text := fun (ts, _) => joinLines ts.args },
    { text := fun (ts, _) => decimal ts.cost },
    { text := fun (_, id) => decimal (rank id) },
    { text := fun (_, id) => decimal (part id) },
    { text := fun (_, id) => (row id).state.text },
    { text := fun (_, id) => decimal (row id).pending },
    { emptyIsNull := true, text := fun (_, id) => (row id).output },
    { emptyIsNull := true, text := fun (_, id) => (row id).inputs },
    { emptyIsNull := true, text := fun (_, id) => (row id).names }]

/-- The entries of `dep_task`, `dep_dep` and `dep_pos`. -/
def depRows (spec : BuildSpec) : List (Nat × Int × Nat) :=
  spec.tasks.zipIdx.flatMap fun (ts, id) => ts.deps.zipIdx.map fun (dep, k) => (id, dep, k)

/-- `$2` to `$4` of `insert_deps`. -/
def depColumns : List (Column (Nat × Int × Nat)) :=
  [{ text := fun r => decimal r.1 }, { text := fun r => decimal r.2.1 }, { text := fun r => decimal r.2.2 }]

/-- The columns of `insert_tasks` as a row has them. -/
def TaskRow.columns (t : TaskRow) : List (Option Str) :=
  [some (decimal t.id), some (decimal t.kind), some t.name, t.key, t.input, some t.args, some (decimal t.cost),
    some (decimal t.priority), some (decimal t.part), some t.state.text, some (decimal t.pendingDeps), t.output,
    t.inputs, t.inputNames]

/-- The columns of `insert_deps`. -/
def TaskDep.columns (d : TaskDep) : List (Option Str) :=
  [some (decimal d.task), some (decimal d.dep), some (decimal d.pos)]

section Bulk

variable {read : Str → Option (List (Option Str))} {Row : Type}

theorem mapM_some {α β : Type} {f : α → Option β} {g : α → β} {l : List α} (all : ∀ a ∈ l, f a = some (g a)) :
    l.mapM f = some (l.map g) := by
  induction l with
  | nil => rfl
  | cons a l ih =>
    rw [List.mapM_cons, all a List.mem_cons_self, ih fun b hb => all b (List.mem_cons_of_mem _ hb)]
    rfl

/-- Columns of one length come back as rows. -/
theorem unnest_columns {columns : List (Row → Option Str)} (some_ : columns ≠ []) (rows : List Row) :
    unnest (columns.map rows.map) = rows.map fun row => columns.map (· row) := by
  have longest : ((columns.map rows.map).map List.length).foldl max 0 = rows.length := by
    have lengths : (columns.map rows.map).map List.length = List.replicate columns.length rows.length := by
      simp [Function.comp_def]
    have equal : ∀ n, (List.replicate n rows.length).foldl max rows.length = rows.length := by
      intro n
      induction n with
      | zero => rfl
      | succ n ih => rw [List.replicate_succ, List.foldl_cons, max_self, ih]
    obtain ⟨column, rest, rfl⟩ := List.exists_cons_of_ne_nil some_
    rw [lengths, List.length_cons, List.replicate_succ, List.foldl_cons, Nat.zero_max, equal]
  rw [unnest, longest]
  refine List.ext_getElem (by simp) fun i small small' => ?_
  simp only [List.getElem_map, List.getElem_range, List.map_map]
  refine List.map_congr_left fun column _ => ?_
  have known : i < rows.length := by simpa using small'
  simp [known]

/-- A bulk insert gives every row its own values. -/
theorem bulkRows_eq (reads : PgReads read) {columns : List (Column Row)} (some_ : columns ≠ []) (rows : List Row) :
    bulkRows read columns rows = some (rows.map fun row => columns.map fun column => column.value row) := by
  have values : ∀ column ∈ columns, read (column.literal rows) = some (rows.map column.value) := fun column _ => by
    rw [Column.literal, reads.pgArray, List.map_map]
    rfl
  have all : (columns.map fun column => column.literal rows).mapM read =
      some ((columns.map Column.value).map rows.map) := by
    rw [List.mapM_map, Function.comp_def, mapM_some values, List.map_map]
    rfl
  rw [bulkRows, all, Option.map_some, unnest_columns (by simpa using some_)]
  simp only [List.map_map]
  rfl

/-- `insert_tasks` gives row `i` the values of task `i`. -/
theorem insert_tasks_rows (reads : PgReads read) (spec : BuildSpec) (rank part : Nat → Int) (build uid : Nat)
    (row : Nat → Resolved) : bulkRows read (taskColumns rank part row) spec.tasks.zipIdx =
      some ((insertedTasks spec rank part build uid row).map TaskRow.columns) := by
  have some_ : taskColumns rank part row ≠ [] := List.cons_ne_nil _ _
  rw [bulkRows_eq reads some_, insertedTasks, List.map_map]
  refine congrArg some (List.map_congr_left fun (ts, id) _ => ?_)
  simp [taskColumns, Column.value, TaskRow.columns, insertedTask, emptyIsNull]

/-- `insert_deps` gives every edge its own. -/
theorem insert_deps_rows (reads : PgReads read) {spec : BuildSpec} (nonneg : ∀ ts ∈ spec.tasks, ∀ d ∈ ts.deps, 0 ≤ d)
    (build : Nat) : bulkRows read depColumns (depRows spec) =
      some ((insertedDeps spec build).map TaskDep.columns) := by
  have some_ : depColumns ≠ [] := List.cons_ne_nil _ _
  rw [bulkRows_eq reads some_, insertedDeps, depRows, List.map_flatMap, List.map_flatMap]
  refine congrArg some (List.flatMap_congr fun (ts, id) task => ?_)
  have member : ts ∈ spec.tasks := List.mem_of_getElem? (List.mk_mem_zipIdx_iff_getElem?.mp task)
  simp only [TaskSpec.depIds, List.zipIdx_map, List.map_map]
  refine List.map_congr_left fun (d, k) dep => ?_
  have own : 0 ≤ d := nonneg ts member d (List.mem_of_getElem? (List.mk_mem_zipIdx_iff_getElem?.mp dep))
  simp [depColumns, Column.value, TaskDep.columns, Int.toNat_of_nonneg own]

/-- The literals carry any texts, to `parse_pg_array` and to PostgreSQL, and so the bulk inserts of
`submit` give each row the values of its own task. -/
theorem array_literals_exact (reads : PgReads read) :
    (∀ items, parsePgArray (pgArray items) = items) ∧
      (∀ items empty_is_null, ∃ elements, read (pgArray items empty_is_null) = some elements ∧
        elements.length = items.length ∧ ∀ (i : Nat) item, items[i]? = some item →
          elements[i]? = some (if empty_is_null = true ∧ item = [] then none else some item)) ∧
      ∀ spec order, topoOrder spec.graph = .ok order → ∀ rank part build uid row,
        bulkRows read (taskColumns rank part row) spec.tasks.zipIdx =
          some ((insertedTasks spec rank part build uid row).map TaskRow.columns) ∧
        bulkRows read depColumns (depRows spec) = some ((insertedDeps spec build).map TaskDep.columns) := by
  refine ⟨parsePgArray_pgArray, fun items empty_is_null => ⟨_, reads.pgArray items empty_is_null, List.length_map _,
    fun i item found => ?_⟩, fun spec order accepted rank part build uid row =>
    ⟨insert_tasks_rows reads spec rank part build uid row, insert_deps_rows reads (fun ts member d dep => ?_) build⟩⟩
  · rw [List.getElem?_map, found, Option.map_some]
  · obtain ⟨i, found⟩ := List.mem_iff_getElem?.mp member
    have task : spec.graph[i]? = some ⟨ts.id, ts.kind, ts.cost, ts.deps⟩ := by simp [BuildSpec.graph, found]
    exact ((topoOrder_ok accepted).inRange i _ task d dep).1

end Bulk

/-! ### A reader -/

/-- Where the reader of an array literal is. -/
inductive Reading where
  | start
  | quoted (cur : Str)
  | closed (cur : Str)
  | plain (cur : Str)

/-- Reads from the first element on; plain words are kept as they are. -/
def readElements : Reading → List (Option Str) → Str → Option (List (Option Str))
  | .start, out, '"' :: rest => readElements (.quoted []) out rest
  | .start, out, c :: rest =>
      if c = ',' ∨ c = '{' ∨ c = '}' ∨ c = '\\' then none else readElements (.plain [c]) out rest
  | .quoted cur, out, '\\' :: c :: rest => readElements (.quoted (cur ++ [c])) out rest
  | .quoted cur, out, '"' :: rest => readElements (.closed cur) out rest
  | .quoted cur, out, c :: rest => readElements (.quoted (cur ++ [c])) out rest
  | .closed cur, out, ',' :: rest => readElements .start (out ++ [some cur]) rest
  | .closed cur, out, ['}'] => some (out ++ [some cur])
  | .plain cur, out, ',' :: rest =>
      readElements .start (out ++ [if cur = "NULL".toList then none else some cur]) rest
  | .plain cur, out, ['}'] => some (out ++ [if cur = "NULL".toList then none else some cur])
  | .plain cur, out, c :: rest =>
      if c = '{' ∨ c = '}' ∨ c = '"' ∨ c = '\\' then none else readElements (.plain (cur ++ [c])) out rest
  | _, _, _ => none

def readArray : Str → Option (List (Option Str))
  | ['{', '}'] => some []
  | '{' :: rest => readElements .start [] rest
  | _ => none

section Reader

variable {out : List (Option Str)} {rest : Str}

theorem readElements_pieces (pieces : List (Char ⊕ Char)) (plain : (ArrayElement.quoted pieces).Plain) (cur : Str) :
    readElements (.quoted cur) out
      (pieces.flatMap ArrayElement.pieceSpelling ++ '"' :: rest) =
      readElements (.closed (cur ++ pieces.map ArrayElement.pieceValue)) out rest := by
  induction pieces generalizing cur with
  | nil =>
    rw [List.flatMap_nil, List.nil_append, List.map_nil, List.append_nil]
    rfl
  | cons piece pieces ih =>
    have later := ih fun c member => plain c (List.mem_cons_of_mem _ member)
    rw [List.flatMap_cons, List.map_cons, List.append_assoc]
    cases piece with
    | inl c =>
      obtain ⟨quote, backslash⟩ := plain c List.mem_cons_self
      rw [ArrayElement.pieceSpelling, List.singleton_append, readElements, later, List.append_assoc]
      · rfl
      · exact fun c' rest' same => absurd same backslash
      · exact quote
    | inr c =>
      rw [ArrayElement.pieceSpelling, List.cons_append, List.singleton_append, readElements, later, List.append_assoc]
      rfl

theorem readElements_element {element : ArrayElement} (plain : element.Plain) (rest : Str)
    (out : List (Option Str)) :
    readElements .start out (element.spelling ++ ',' :: rest) = readElements .start (out ++ [element.value]) rest ∧
      readElements .start out (element.spelling ++ ['}']) = some (out ++ [element.value]) := by
  cases element with
  | null => exact ⟨rfl, rfl⟩
  | quoted pieces =>
    have split : ∀ rest, (ArrayElement.quoted pieces).spelling ++ rest =
        '"' :: (pieces.flatMap ArrayElement.pieceSpelling ++ '"' :: rest) := fun rest => by
      simp [ArrayElement.spelling]
    rw [split, split, readElements, readElements_pieces pieces plain, readElements, readElements_pieces pieces plain]
    exact ⟨rfl, rfl⟩

theorem readElements_elements (element : ArrayElement) (elements : List ArrayElement)
    (plain : ∀ e ∈ element :: elements, e.Plain) :
    readElements .start out ([','].intercalate ((element :: elements).map ArrayElement.spelling) ++ ['}']) =
      some (out ++ (element :: elements).map ArrayElement.value) := by
  induction elements generalizing element out with
  | nil =>
    have split : [','].intercalate ([element].map ArrayElement.spelling) = element.spelling := by simp
    have last := (readElements_element (plain element List.mem_cons_self) [] out).2
    rw [split, last]
    rfl
  | cons next elements ih =>
    have split : [','].intercalate ((element :: next :: elements).map ArrayElement.spelling) =
        element.spelling ++ ',' :: [','].intercalate ((next :: elements).map ArrayElement.spelling) := by
      simp [List.intercalate_cons_cons]
    rw [split, List.append_assoc, List.cons_append, (readElements_element (plain element List.mem_cons_self) _ out).1,
      ih next fun e member => plain e (List.mem_cons_of_mem _ member), List.append_assoc]
    rfl

/-- The reader reads array literals as PostgreSQL documents them. -/
theorem readArray_reads : PgReads readArray := by
  intro elements plain
  cases elements with
  | nil => rfl
  | cons element elements =>
    have body : readElements .start [] _ = some ([] ++ _) := readElements_elements element elements plain
    have filled : [','].intercalate ((element :: elements).map ArrayElement.spelling) ++ ['}'] ≠ ['}'] := by
      intro same
      rw [same] at body
      cases body
    rw [readArray]
    · exact body
    · exact filled

end Reader

/-- Texts that look like the syntax around them. -/
theorem array_literals_exact_texts :
    readArray (pgArray ["NULL".toList, [], "a\"b,\\\x7b\x7d".toList] true) =
      some [some "NULL".toList, none, some "a\"b,\\\x7b\x7d".toList] := by
  obtain ⟨-, texts, -⟩ := array_literals_exact readArray_reads
  obtain ⟨elements, read, length, each⟩ := texts ["NULL".toList, [], "a\"b,\\\x7b\x7d".toList] true
  rw [read]
  refine congrArg some (List.ext_getElem? fun i => ?_)
  match i with
  | 0 => exact each 0 _ rfl
  | 1 => exact each 1 _ rfl
  | 2 => exact each 2 _ rfl
  | i + 3 => rw [List.getElem?_eq_none (by simp [length]), List.getElem?_eq_none (by simp)]

end DistCompile
