/-
# LexLang.Api.Cursor — pulls that follow the server's cursor

`GET /v1/ops/since` in full (`lex-api/src/ops_since_http.rs`): the unpaged answer, the page a request
without a cursor starts with, and the pages of a cursor. Every page that leaves ops behind carries the
cursor of the next one, `v1.<head>.<base or _>.<offset>`; a page of a cursor depends on nothing else
the server knows.

The encoder writes the base as the client sent it, and the decoder takes an op id: a string of 1 to
128 hex digits.

What came in the line of an HTTP request is ASCII, and so is the header made of it.
-/
import LexLang.Api.OpsSince
import LexLang.Text.Decimal

namespace LexLang.Api

open LexLang.Graph LexLang.Vcs

/-! ## The cursor -/

/-- `u8::is_ascii_hexdigit`. -/
def isHexDigit (c : Char) : Bool :=
  c.isDigit || ('a' ≤ c && c ≤ 'f') || ('A' ≤ c && c ≤ 'F')

/-- A string that a cursor may hold as an op id. -/
def isOpId (s : String) : Bool :=
  !s.toList.isEmpty && s.toList.length ≤ 128 && s.toList.all isHexDigit

/-- `v1.<head>.<base or _>.<offset>`. -/
def encodeCursor (head : OpId) (base : Option OpId) (offset : Nat) : String :=
  "v1." ++ head ++ "." ++ base.getD "_" ++ "." ++ toString offset

/-- The base that a cursor names: `_` for none. -/
def decodeBase (part : String) : Option (Option OpId) :=
  if part = "_" then some none
  else if isOpId part then some (some part)
  else none

def decodeCursor (c : String) : Option (OpId × Option OpId × Nat) :=
  match c.toList.splitOn '.' with
  | [v, head, base, offset] =>
    if v ≠ ['v', '1'] ∨ !isOpId (String.ofList head) then none
    else do
      let base ← decodeBase (String.ofList base)
      let offset ← parseUsize offset
      pure (String.ofList head, base, offset)
  | _ => none

/-- The base a cursor stands for once it is decoded, if it is decoded. -/
def Decodes (base : Option OpId) : Prop :=
  ∀ b, base = some b → b = "_" ∨ isOpId b

section Codec

theorem dot_notMem_of_isOpId {s : String} (h : isOpId s) : '.' ∉ s.toList := by
  intro hdot
  unfold isOpId at h
  simp only [Bool.and_eq_true, List.all_eq_true] at h
  have := h.2 '.' hdot
  simp [isHexDigit] at this

/-- The parts of an encoded cursor: what the base splits into is in the middle. -/
theorem splitOn_encodeCursor {head : OpId} (hhead : isOpId head) (base : Option OpId) (offset : Nat) :
    (encodeCursor head base offset).toList.splitOn '.' = ['v', '1'] :: head.toList ::
        ((base.getD "_").toList.splitOn '.' ++ [Nat.toDigits 10 offset]) := by
  have hlist : (encodeCursor head base offset).toList =
      ['v', '1'] ++ '.' :: (head.toList ++ '.' :: ((base.getD "_").toList ++ '.' ::
        Nat.toDigits 10 offset)) := by
    unfold encodeCursor
    simp
  rw [hlist, List.splitOn_append_cons_self, List.splitOn_append_cons_self, List.splitOn_append_cons_self]
  rw [List.splitOn_eq_singleton (dot_notMem_of_isOpId hhead),
    List.splitOn_eq_singleton (dot_notMem_toDigits offset)]
  rfl

/-- The base after a round trip through the cursor. -/
def plainBase (base : Option OpId) : Option OpId := base.filter fun b => b ≠ "_"

theorem encodeCursor_plainBase (head : OpId) (base : Option OpId) (offset : Nat) :
    encodeCursor head (plainBase base) offset = encodeCursor head base offset := by
  unfold plainBase
  cases base with
  | none => rfl
  | some b =>
    by_cases hb : b = "_"
    · subst hb
      rfl
    · rw [Option.filter_some, if_pos (by simpa using hb)]

/-- **A cursor over an op id, or over none, is read back.** -/
theorem decode_encodeCursor {head : OpId} (hhead : isOpId head) {base : Option OpId}
    (hbase : Decodes base) (offset : Nat) :
    decodeCursor (encodeCursor head base offset) = some (head, plainBase base, offset) := by
  have hpart : decodeBase (base.getD "_") = some (plainBase base) ∧
      '.' ∉ (base.getD "_").toList := by
    cases base with
    | none => exact ⟨rfl, by decide⟩
    | some b =>
      unfold decodeBase plainBase
      rcases hbase b rfl with rfl | hb
      · exact ⟨rfl, by decide⟩
      · have hne : b ≠ "_" := by
          rintro rfl
          revert hb
          decide
        refine ⟨?_, dot_notMem_of_isOpId hb⟩
        rw [Option.getD_some, if_neg hne, if_pos hb, Option.filter_some, if_pos (by simpa using hne)]
  unfold decodeCursor
  rw [splitOn_encodeCursor hhead, List.splitOn_eq_singleton hpart.2]
  simp [hhead, hpart.1, parseUsize_toDigits]

/-- **Any other cursor is refused.** -/
theorem decode_encodeCursor_none {head : OpId} (hhead : isOpId head) {base : Option OpId}
    (hbase : ¬ Decodes base) (offset : Nat) : decodeCursor (encodeCursor head base offset) = none := by
  unfold Decodes at hbase
  push Not at hbase
  obtain ⟨b, rfl, hne, hb⟩ := hbase
  unfold decodeCursor
  rw [splitOn_encodeCursor hhead]
  -- a base with a dot in it makes too many parts
  have hparts : (b.toList.splitOn '.') = [b.toList] ∨ ∃ p q rest, b.toList.splitOn '.' = p :: q :: rest := by
    by_cases hdot : '.' ∈ b.toList
    · obtain ⟨left, right, hsplit⟩ := List.append_of_mem hdot
      right
      rw [hsplit, List.splitOn_append_cons_self]
      obtain ⟨p, ps, hp⟩ := List.exists_cons_of_ne_nil (List.splitOn_ne_nil '.' left)
      obtain ⟨q, qs, hq⟩ := List.exists_cons_of_ne_nil (List.splitOn_ne_nil '.' right)
      rw [hp, hq]
      cases ps with
      | nil => exact ⟨p, q, qs, rfl⟩
      | cons p' ps => exact ⟨p, p', ps ++ q :: qs, rfl⟩
    · exact .inl (List.splitOn_eq_singleton hdot)
  rcases hparts with hpart | ⟨p, q, rest, hpart⟩
  · have hdecode : decodeBase b = none := by
      unfold decodeBase
      simp [hne, hb]
    simp [hpart, hdecode]
  · simp only [Option.getD_some, hpart]
    cases rest <;> rfl

/-- **A cursor is read back as it was written exactly for op ids**: nothing else gets through the decoder. -/
theorem cursor_roundTrip (head : OpId) (base : Option OpId) (offset : Nat) :
    decodeCursor (encodeCursor head base offset) = some (head, base, offset) ↔
      isOpId head ∧ ∀ b, base = some b → isOpId b := by
  constructor
  · intro h
    unfold decodeCursor at h
    split at h
    · split at h
      · cases h
      · next hhead =>
        obtain ⟨part, hpart, h⟩ := Option.bind_eq_some_iff.mp h
        obtain ⟨n, -, h⟩ := Option.bind_eq_some_iff.mp h
        cases h
        refine ⟨by simpa using (not_or.mp hhead).2, fun b hb => ?_⟩
        unfold decodeBase at hpart
        split_ifs at hpart with hnone hid
        · cases hb.symm.trans (Option.some.inj hpart).symm
        · cases hb.symm.trans (Option.some.inj hpart).symm
          exact hid
    · cases h
  · rintro ⟨hhead, hbase⟩
    rw [decode_encodeCursor hhead fun b hb => .inr (hbase b hb)]
    cases base with
    | none => rfl
    | some b =>
      have hne : b ≠ "_" := by
        rintro rfl
        exact absurd (hbase _ rfl) (by decide)
      simp [plainBase, hne]

end Codec

/-! ## The handler -/

/-- A parsed query. -/
structure Query where
  after : Option OpId
  limit : Option Nat
  cursor : Option String

/-- What the client is sent: an error, `426`, or a page with the cursor of the next one. -/
inductive Response
  | error (code : Nat) (message : String)
  | upgradeRequired (opId : OpId)
  | page (ops : List OperationRecord) (nextCursor : Option String)

/-- Drop the page ends recorded for an op: a client that follows cursors has no use for them. -/
def forgetContinuation (conts : List Continuation) (head last : OpId) : List Continuation :=
  conts.filter fun c => !decide (c.head = head ∧ c.last = last)

section Handler

variable (log : OpLog)

/-- The page from `offset` on of the delta of `head` and `base`. -/
def pageFrom (conts : List Continuation) (filesV1 : Bool) (query : Query) (head : OpId)
    (base : Option OpId) (offset : Nat) : Response × List Continuation :=
  let order := deltaOrder log head base
  let total := order.length
  if query.cursor.isSome && ((HistoryIndex.build log head).ids.isEmpty || total < offset) then
    (.error 400 ("cursor `" ++ query.cursor.getD "" ++
      "` does not name a page of this store's history; restart the pull"), conts)
  else
    let endPos := match query.limit with
      | some limit => min (offset + limit) total
      | none => total
    let ops := ((order.drop offset).take (endPos - offset)).filterMap log.get
    -- at the start of a pull the ops past the page are scanned too
    let scanned := ops ++
      if query.cursor.isNone && offset == 0 then (order.drop endPos).filterMap log.get else []
    match if filesV1 then none else scanned.find? isSetFiles with
    | some record => (.upgradeRequired record.opId, conts)
    | none =>
      let conts := match query.cursor, query.after with
        | some _, some after => forgetContinuation conts head after
        | _, _ => conts
      let conts :=
        if endPos < total && query.cursor.isNone then
          match ops.getLast? with
          | some record => recordContinuation conts { head, last := record.opId, base, endPos }
          | none => conts
        else conts
      (.page ops (if endPos < total then some (encodeCursor head base endPos) else none), conts)

/-- **`ops_since_handler`**, for a branch with the head `branchHead`. -/
def opsSinceHandler (branchHead : Option OpId) (conts : List Continuation) (filesV1 : Bool)
    (query : Query) : Response × List Continuation :=
  match query.cursor with
  | some c =>
    match decodeCursor c with
    | some (head, base, offset) => pageFrom log conts filesV1 query head base offset
    | none => (.error 400 ("malformed cursor `" ++ c ++ "`"), conts)
  | none =>
    match branchHead with
    | none => (.page [] none, conts)
    | some head =>
      match query.limit with
      | none =>
        let ops := log.opsSince head query.after
        match if filesV1 then none else ops.find? isSetFiles with
        | some record => (.upgradeRequired record.opId, conts)
        | none => (.page ops.reverse none, conts)
      | some _ =>
        let ((base, offset), conts) := startOf conts head query.after
        pageFrom log conts filesV1 query head base offset

variable {log}

end Handler

/-! ## A pull -/

/-- Where a pull is: about to ask, with a cursor or without; sent a page that says it is the last one;
or refused. -/
inductive PullState
  | asking (cursor : Option String)
  | last
  | refused (response : Response)

/-- A pull: what the client was sent, the server's table, and where the pull is. -/
structure Pull where
  received : List OpId
  conts : List Continuation
  state : PullState

section Pull

variable (log : OpLog) (head : OpId) (conts : List Continuation) (filesV1 : Bool)
  (after : Option OpId)

/-- **One request and its response.** Beside the cursor the client sends the last op it was sent, for
servers that know no cursors. -/
def Pull.step (limit : Nat) (pull : Pull) : Pull :=
  match pull.state with
  | .asking cursor =>
    let query := { after := pull.received.getLast?.or after, limit := some limit, cursor }
    match opsSinceHandler log (some head) pull.conts filesV1 query with
    | (.page ops next, conts) =>
      { received := pull.received ++ ops.map OperationRecord.opId
        conts
        state := match next with
          | some cursor => .asking (some cursor)
          | none => .last }
    | (response, conts) => { pull with conts, state := .refused response }
  | .last | .refused _ => pull

/-- **The pull after `n` requests**, the `k`-th one asking for `limits k` ops. -/
def pull (limits : Nat → Nat) : Nat → Pull
  | 0 => { received := [], conts, state := .asking none }
  | n + 1 => (pull limits n).step log head filesV1 after (limits n)

/-- How many ops were asked for by then. -/
def asked (limits : Nat → Nat) : Nat → Nat
  | 0 => 0
  | n + 1 => asked limits n + limits n

/-- **The pull delivers the delta of its `after`**: no request is refused, and after finitely many the
last page has come, with every op of the delta once and in order. -/
def Delivers (limits : Nat → Nat) : Prop :=
  (∀ n response, (pull log head conts filesV1 after limits n).state ≠ .refused response) ∧
    ∃ n, (pull log head conts filesV1 after limits n).state = .last ∧
      (pull log head conts filesV1 after limits n).received = deltaOrder log head after

/-- The client can store the ops. -/
def Storable (ids : List OpId) : Prop :=
  filesV1 = true ∨ ∀ id ∈ ids, ∀ record, log.get id = some record → isSetFiles record = false

end Pull

/-! ## One page -/

section Page

variable {log : OpLog} {head : OpId} {filesV1 : Bool}

theorem Storable.mono {ids ids' : List OpId} (h : Storable log filesV1 ids) (hsub : ids' ⊆ ids) :
    Storable log filesV1 ids' := h.imp_right fun h id hid => h id (hsub hid)

theorem Storable.append {ids ids' : List OpId} (h : Storable log filesV1 ids)
    (h' : Storable log filesV1 ids') : Storable log filesV1 (ids ++ ids') := by
  rcases h with h | h
  · exact .inl h
  rcases h' with h' | h'
  · exact .inl h'
  right
  intro id hid
  rcases List.mem_append.mp hid with hid | hid
  · exact h id hid
  · exact h' id hid

theorem storable_iff_find (ids : List OpId) : Storable log filesV1 ids ↔
      (if filesV1 = true then none else (ids.filterMap log.get).find? isSetFiles) = none := by
  unfold Storable
  cases filesV1 with
  | true => simp
  | false =>
    simp only [Bool.false_eq_true, false_or, if_false, List.find?_eq_none, List.mem_filterMap]
    constructor
    · rintro h record ⟨id, hid, hget⟩
      simp [h id hid record hget]
    · intro h id hid record hget
      simpa using h record ⟨id, hid, hget⟩

/-- Something to page means something indexed. -/
theorem ids_build_ne_nil {base : Option OpId} {offset : Nat}
    (h : offset < (deltaOrder log head base).length) : (HistoryIndex.build log head).ids ≠ [] := by
  intro hnil
  have hid : (HistoryIndex.build log head).id = fun _ => none := by
    funext i
    unfold HistoryIndex.id
    rw [hnil]
    rfl
  unfold deltaOrder at h
  simp [hid] at h

variable (filesV1) in
/-- **One page**: the next ops of the delta, with the cursor of what is left behind; or `426`, when a
client that cannot store files would be sent some. -/
theorem pageFrom_spec (hac : log.Acyclic) (conts : List Continuation) (after : Option OpId)
    (limit : Nat) (cursor : Option String) (base : Option OpId) (offset : Nat)
    (hfits : cursor.isSome → offset < (deltaOrder log head base).length) :
    (∃ ops conts', pageFrom log conts filesV1 ⟨after, some limit, cursor⟩ head base offset =
        (.page ops (if offset + limit < (deltaOrder log head base).length then
          some (encodeCursor head base (offset + limit)) else none), conts') ∧
      ops.map OperationRecord.opId = ((deltaOrder log head base).drop offset).take limit ∧
      Storable log filesV1 (((deltaOrder log head base).drop offset).take limit)) ∨
    ∃ id conts', pageFrom log conts filesV1 ⟨after, some limit, cursor⟩ head base offset =
        (.upgradeRequired id, conts') ∧ ¬ Storable log filesV1 ((deltaOrder log head base).drop offset) := by
  obtain ⟨order, horder⟩ : ∃ order, deltaOrder log head base = order := ⟨_, rfl⟩
  have hlogged : ∀ id ∈ order, log.get id ≠ none := by
    intro id hid
    rw [← horder] at hid
    exact ((mem_deltaOrder_iff hac).mp hid).1.2
  have hrefuse : (cursor.isSome && ((HistoryIndex.build log head).ids.isEmpty ||
      decide (order.length < offset))) = false := by
    cases hcursor : cursor.isSome with
    | false => rfl
    | true =>
      have hlt := hfits hcursor
      have hne := ids_build_ne_nil hlt
      rw [horder] at hlt
      simp [hne, hlt.le]
  have htake : (order.drop offset).take (min (offset + limit) order.length - offset) =
      (order.drop offset).take limit := by
    apply List.take_eq_take_iff.mpr
    rw [List.length_drop]
    omega
  unfold pageFrom
  simp only [horder, hrefuse, htake]
  have hnext : (if min (offset + limit) order.length < order.length then
        some (encodeCursor head base (min (offset + limit) order.length)) else none) =
      if offset + limit < order.length then some (encodeCursor head base (offset + limit)) else none := by
    by_cases hmore : offset + limit < order.length
    · rw [Nat.min_eq_left hmore.le]
    · rw [if_neg hmore, if_neg (by omega)]
  -- what is scanned is the page, or all that is left
  obtain ⟨rest, hrest, hscan⟩ : ∃ rest, rest ⊆ order.drop offset ∧
      (((order.drop offset).take limit).filterMap log.get ++
        if cursor.isNone && offset == 0 then
          (order.drop (min (offset + limit) order.length)).filterMap log.get
        else []) = (((order.drop offset).take limit) ++ rest).filterMap log.get := by
    by_cases hstart : (cursor.isNone && offset == 0) = true
    · refine ⟨order.drop (min (offset + limit) order.length), ?_, ?_⟩
      · have hzero : offset = 0 := by simpa using (Bool.and_eq_true_iff.mp hstart).2
        rw [hzero]
        exact List.drop_subset _ _
      · rw [if_pos hstart, List.filterMap_append]
    · refine ⟨[], List.nil_subset _, ?_⟩
      rw [if_neg hstart, List.append_nil, List.append_nil]
  rw [hscan]
  by_cases hstorable : Storable log filesV1 (((order.drop offset).take limit) ++ rest)
  · left
    rw [(storable_iff_find _).mp hstorable, hnext]
    exact ⟨_, _, rfl, OpLog.map_opId_filterMap_get fun id hid => hlogged id
      (List.mem_of_mem_drop (List.mem_of_mem_take hid)), hstorable.mono (List.subset_append_left _ _)⟩
  · right
    have hfound := mt (storable_iff_find _).mpr hstorable
    obtain ⟨record, hrecord⟩ := Option.ne_none_iff_exists'.mp hfound
    rw [hrecord]
    refine ⟨_, _, rfl, fun h => hstorable (h.mono ?_)⟩
    exact List.append_subset.mpr ⟨List.take_subset _ _, hrest⟩

end Page

/-! ## Whole pulls -/

section Whole

variable {log : OpLog} {head : OpId} {conts : List Continuation} {filesV1 : Bool}
  {after : Option OpId} {limits : Nat → Nat}

/-- A base that is not logged rules nothing out. -/
theorem deltaOrder_of_unlogged {b : OpId} (h : log.get b = none) :
    deltaOrder log head (some b) = deltaOrder log head none := by
  have hwalk : log.walkBack b none = [] := by
    refine List.eq_nil_iff_forall_not_mem.mpr fun record hrecord => ?_
    obtain ⟨hget, hreach⟩ := OpLog.mem_walkBack_iff.mp hrecord
    rcases Relation.ReflTransGen.cases_head hreach with rfl | ⟨p, hedge, _⟩
    · rw [h] at hget
      cases hget
    · obtain ⟨record', hrecord', _⟩ := OpLog.edge_iff.mp hedge
      rw [h] at hrecord'
      cases hrecord'
  have hpos : (HistoryIndex.build log head).pos b = none := by
    by_contra hne
    obtain ⟨i, hi⟩ := Option.ne_none_iff_exists'.mp hne
    obtain ⟨record, hrecord, hid⟩ := OpLog.of_indexOf_eq_some hi
    have hget := (OpLog.mem_walkBack_iff.mp (List.mem_of_getElem? hrecord)).1
    rw [hid, h] at hget
    cases hget
  have hexcluded : (HistoryIndex.build log head).excluded log (some b) =
      (HistoryIndex.build log head).excluded log none := by
    funext i
    unfold HistoryIndex.excluded
    simp only [hpos, hwalk]
    cases (HistoryIndex.build log head).id i <;> rfl
  simp only [deltaOrder, HistoryIndex.since, hexcluded]

theorem deltaOrder_plainBase (hids : ∀ id, log.get id ≠ none → isOpId id) (base : Option OpId) :
    deltaOrder log head (plainBase base) = deltaOrder log head base := by
  cases base with
  | none => rfl
  | some b =>
    by_cases hb : b = "_"
    · subst hb
      have hnone : log.get "_" = none := by
        by_contra h
        have := hids "_" h
        revert this
        decide
      rw [deltaOrder_of_unlogged hnone]
      rfl
    · unfold plainBase
      rw [Option.filter_some, if_pos (by simpa using hb)]

/-- **A pull that goes well after `n` requests**, started at `offset` of the delta of `base`. -/
structure Underway (log : OpLog) (head : OpId) (filesV1 : Bool) (base : Option OpId) (offset : Nat)
    (count : Nat) (pull : Pull) : Prop where
  received : pull.received = ((deltaOrder log head base).drop offset).take count
  storable : Storable log filesV1 pull.received
  state : pull.state = if offset + count < (deltaOrder log head base).length then
    .asking (some (encodeCursor head base (offset + count))) else .last

/-- What a page does to a pull. -/
theorem Underway.page {base : Option OpId} {offset count limit : Nat} {before : Pull}
    {ops : List OperationRecord} {conts : List Continuation}
    (hreceived : before.received = ((deltaOrder log head base).drop offset).take count)
    (hstorable : Storable log filesV1 before.received) (hops : ops.map OperationRecord.opId =
      ((deltaOrder log head base).drop (offset + count)).take limit)
    (hpage : Storable log filesV1 (((deltaOrder log head base).drop (offset + count)).take limit)) :
    Underway log head filesV1 base offset (count + limit)
      { received := before.received ++ ops.map OperationRecord.opId
        conts
        state := match (if offset + (count + limit) < (deltaOrder log head base).length then
            some (encodeCursor head base (offset + (count + limit))) else none) with
          | some cursor => .asking (some cursor)
          | none => .last } where
  received := by
    show before.received ++ ops.map OperationRecord.opId = _
    rw [hreceived, hops, List.take_add, List.drop_drop]
  storable := by
    show Storable log filesV1 (before.received ++ ops.map OperationRecord.opId)
    rw [hops]
    exact hstorable.append hpage
  state := by
    dsimp only
    split_ifs <;> rfl

variable (filesV1 limits) in
theorem pull_one (hac : log.Acyclic) {base : Option OpId} {offset : Nat} {table : List Continuation}
    (hstart : startOf conts head after = ((base, offset), table)) : Underway log head filesV1 base offset (limits 0)
        (pull log head conts filesV1 after limits 1) ∨
      (∃ response, (pull log head conts filesV1 after limits 1).state = .refused response) ∧
        ¬ Storable log filesV1 ((deltaOrder log head base).drop offset) := by
  have hquery : opsSinceHandler log (some head) conts filesV1 ⟨after, some (limits 0), none⟩ =
      pageFrom log table filesV1 ⟨after, some (limits 0), none⟩ head base offset := by
    unfold opsSinceHandler
    simp only [hstart]
  show Underway log head filesV1 base offset (limits 0) (Pull.step log head filesV1 after (limits 0)
      { received := [], conts, state := .asking none }) ∨
    (∃ response, (Pull.step log head filesV1 after (limits 0)
      { received := [], conts, state := .asking none }).state = .refused response) ∧ _
  unfold Pull.step
  simp only [List.getLast?_nil, Option.none_or, hquery]
  rcases pageFrom_spec filesV1 hac table after (limits 0) none base offset (by simp) with
    ⟨ops, conts', hpage, hops, hstorable⟩ | ⟨id, conts', hpage, hnot⟩
  · left
    rw [hpage]
    simpa using @Underway.page log head filesV1 base offset 0 (limits 0) ⟨[], conts, .asking none⟩ ops conts'
      rfl (.inr (by simp)) hops hstorable
  · right
    rw [hpage]
    exact ⟨⟨_, rfl⟩, hnot⟩

variable (after) in
/-- **One more request**, with the cursor of the page before. -/
theorem Underway.step (hac : log.Acyclic) (hids : ∀ id, log.get id ≠ none → isOpId id)
    {base : Option OpId} {offset count : Nat} {before : Pull}
    (h : Underway log head filesV1 base offset count before) (limit : Nat) :
    (offset + count < (deltaOrder log head base).length → Decodes base) ∧
        Underway log head filesV1 base offset (count + limit) (before.step log head filesV1 after limit) ∨
      (∃ response, (before.step log head filesV1 after limit).state = .refused response) ∧
        ¬ ((offset + count < (deltaOrder log head base).length → Decodes base) ∧
          Storable log filesV1 ((deltaOrder log head base).drop offset)) := by
  have hstate := h.state
  unfold Pull.step
  by_cases hmore : offset + count < (deltaOrder log head base).length
  · rw [if_pos hmore] at hstate
    have hhead : isOpId head := by
      obtain ⟨id, hid⟩ := List.exists_mem_of_length_pos (Nat.lt_of_le_of_lt (Nat.zero_le _) hmore)
      have hin := ((mem_deltaOrder_iff hac).mp hid).1
      apply hids
      rcases Relation.ReflTransGen.cases_head hin.1 with rfl | ⟨p, hedge, _⟩
      · exact hin.2
      · obtain ⟨record, hrecord, _⟩ := OpLog.edge_iff.mp hedge
        simp [hrecord]
    simp only [hstate]
    by_cases hbase : Decodes base
    · have hquery : opsSinceHandler log (some head) before.conts filesV1
            ⟨before.received.getLast?.or after, some limit,
              some (encodeCursor head base (offset + count))⟩ =
          pageFrom log before.conts filesV1 ⟨before.received.getLast?.or after, some limit,
              some (encodeCursor head base (offset + count))⟩ head (plainBase base)
            (offset + count) := by
        unfold opsSinceHandler
        simp only [decode_encodeCursor hhead hbase]
      have hplain := @deltaOrder_plainBase log head hids base
      rw [hquery]
      rcases pageFrom_spec filesV1 hac before.conts (before.received.getLast?.or after)
          limit (some (encodeCursor head base (offset + count))) (plainBase base) (offset + count)
          (fun _ => by rwa [hplain]) with
        ⟨ops, conts', hpage, hops, hstorable⟩ | ⟨id, conts', hpage, hnot⟩
      · left
        rw [hplain] at hops hstorable
        rw [hpage, hplain, encodeCursor_plainBase, Nat.add_assoc]
        exact ⟨fun _ => hbase, Underway.page h.received h.storable hops hstorable⟩
      · right
        rw [hpage]
        refine ⟨⟨_, rfl⟩, fun hgood => hnot ?_⟩
        rw [hplain, ← List.drop_drop]
        exact hgood.2.mono (List.drop_subset _ _)
    · right
      have hquery : ∃ message, opsSinceHandler log (some head) before.conts filesV1
            ⟨before.received.getLast?.or after, some limit,
              some (encodeCursor head base (offset + count))⟩ = (.error 400 message, before.conts) := by
        unfold opsSinceHandler
        simp only [decode_encodeCursor_none hhead hbase]
        exact ⟨_, rfl⟩
      obtain ⟨message, hquery⟩ := hquery
      rw [hquery]
      exact ⟨⟨_, rfl⟩, fun hgood => hbase (hgood.1 hmore)⟩
  · rw [if_neg hmore] at hstate
    simp only [hstate]
    refine .inl ⟨fun h => absurd h hmore, ?_, h.storable, ?_⟩
    · have hlength : ((deltaOrder log head base).drop offset).length ≤ count := by
        rw [List.length_drop]
        omega
      rw [h.received, List.take_of_length_le hlength, List.take_of_length_le (by omega)]
    · rw [hstate, if_neg (by omega)]

/-- **When a pull delivers**: where it starts there is the delta of its `after` left, the client can
store it, the limits add up to it, and its cursors are read back, or none is needed. -/
def Deliverable (log : OpLog) (head : OpId) (conts : List Continuation) (filesV1 : Bool)
    (after : Option OpId) (limits : Nat → Nat) : Prop :=
  let ((base, offset), _) := startOf conts head after
  let order := deltaOrder log head base
  order.drop offset = deltaOrder log head after ∧ Storable log filesV1 (order.drop offset) ∧
    (∃ n, order.length ≤ offset + asked limits n) ∧
    (Decodes base ∨ order.length ≤ offset + limits 0)

/-- At least the first page has been asked for. -/
theorem limit_le_asked (limits : Nat → Nat) (n : Nat) : limits 0 ≤ asked limits (n + 1) := by
  induction n with
  | zero => show limits 0 ≤ 0 + limits 0; omega
  | succ n ih => show limits 0 ≤ asked limits (n + 1) + limits (n + 1); omega

/-- **A pull that follows the cursors delivers the delta of its `after` exactly when it is
deliverable**, over any acyclic log of hex ids, any table of page ends and any sequence of limits. -/
theorem pull_delivers_iff (hac : log.Acyclic) (hids : ∀ id, log.get id ≠ none → isOpId id) :
    Delivers log head conts filesV1 after limits ↔ Deliverable log head conts filesV1 after limits := by
  obtain ⟨⟨⟨base, offset⟩, table⟩, hstart⟩ : ∃ start, startOf conts head after = start := ⟨_, rfl⟩
  have hfirst := pull_one filesV1 limits hac hstart
  have hone : asked limits 1 = limits 0 := by
    show 0 + limits 0 = limits 0
    omega
  rw [← hone] at hfirst
  unfold Deliverable
  simp only [hstart]
  constructor
  · rintro ⟨hnever, n, hlast, hreceived⟩
    have hbegun : Underway log head filesV1 base offset (asked limits 1)
        (pull log head conts filesV1 after limits 1) := by
      rcases hfirst with h | ⟨⟨response, hresponse⟩, -⟩
      · exact h
      · exact absurd hresponse (hnever 1 response)
    have hstep : ∀ k, Underway log head filesV1 base offset (asked limits (k + 1))
        (pull log head conts filesV1 after limits (k + 1)) →
        (offset + asked limits (k + 1) < (deltaOrder log head base).length → Decodes base) ∧
          Underway log head filesV1 base offset (asked limits (k + 2))
            (pull log head conts filesV1 after limits (k + 2)) := by
      intro k h
      rcases h.step after hac hids (limits (k + 1)) with h | ⟨⟨response, hr⟩, -⟩
      · exact h
      · exact absurd hr (hnever (k + 2) response)
    have hall : ∀ k, Underway log head filesV1 base offset (asked limits (k + 1))
        (pull log head conts filesV1 after limits (k + 1)) := by
      intro k
      induction k with
      | zero => exact hbegun
      | succ k ih => exact (hstep k ih).2
    obtain ⟨k, rfl⟩ : ∃ k, n = k + 1 := by
      cases n with
      | zero => cases hlast
      | succ k => exact ⟨k, rfl⟩
    have hend : (deltaOrder log head base).length ≤ offset + asked limits (k + 1) := by
      by_contra hmore
      have hstate := (hall k).state
      rw [hlast, if_pos (by omega)] at hstate
      cases hstate
    have hdrop : (pull log head conts filesV1 after limits (k + 1)).received =
        (deltaOrder log head base).drop offset := by
      rw [(hall k).received, List.take_of_length_le]
      rw [List.length_drop]
      omega
    refine ⟨hdrop.symm.trans hreceived, hdrop ▸ (hall k).storable, ⟨k + 1, hend⟩, ?_⟩
    by_cases hmore : offset + limits 0 < (deltaOrder log head base).length
    · exact .inl ((hstep 0 hbegun).1 (hone ▸ hmore))
    · exact .inr (by omega)
  · rintro ⟨hdelta, hstorable, ⟨n, hn⟩, hcursor⟩
    have hall : ∀ k, Underway log head filesV1 base offset (asked limits (k + 1))
        (pull log head conts filesV1 after limits (k + 1)) := by
      intro k
      induction k with
      | zero => exact hfirst.resolve_right fun h => h.2 hstorable
      | succ k ih =>
        rcases ih.step after hac hids (limits (k + 1)) with h | ⟨-, hbad⟩
        · exact h.2
        · refine absurd ⟨fun hmore => ?_, hstorable⟩ hbad
          have := limit_le_asked limits k
          exact hcursor.resolve_right (by omega)
    refine ⟨fun k response hrefused => ?_, n + 1, ?_, ?_⟩
    · cases k with
      | zero => cases hrefused
      | succ k =>
        rw [(hall k).state] at hrefused
        split_ifs at hrefused
    · have : asked limits n ≤ asked limits (n + 1) := Nat.le_add_right _ _
      rw [(hall n).state, if_neg (by omega)]
    · have : asked limits n ≤ asked limits (n + 1) := Nat.le_add_right _ _
      rw [(hall n).received, ← hdelta, List.take_of_length_le]
      rw [List.length_drop]
      omega

end Whole

/-- A root, two lines on it, and their merge, under hex ids. -/
def hexLog : OpLog := OpLog.ofRecords
  [⟨"a0", .v1, .new (.addType "f" "s1" none) [], .create "f" "s1"⟩,
    ⟨"b1", .v1, .new (.addType "h" "s2" none) ["a0"], .create "h" "s2"⟩,
    ⟨"b2", .v1, .new (.addType "k" "s3" none) ["a0"], .create "k" "s3"⟩,
    ⟨"c3", .v1, .new (.merge 0) ["b1", "b2"], .merge ∅⟩]

theorem hexLog_acyclic : hexLog.Acyclic := OpLog.acyclic_ofRecords (by decide) (by decide)

theorem isOpId_of_hexLog (id : OpId) (h : hexLog.get id ≠ none) : isOpId id := by
  have hids : ∀ id ∈ hexLog.ids, isOpId id := by decide
  exact hids id (OpLog.mem_ids.mpr h)

/-- **A pull that starts from the empty `after`** is refused at its second page. -/
theorem emptyAfter_refused : ¬ ∀ (log : OpLog) (head : OpId) (conts : List Continuation) (filesV1 : Bool)
      (after : Option OpId) (limits : Nat → Nat), log.Acyclic →
        (∀ id, log.get id ≠ none → isOpId id) → (∀ n, 0 < limits n) →
          Delivers log head conts filesV1 after limits := by
  intro h
  obtain ⟨hnever, -⟩ := h hexLog "c3" [] true (some "") (fun _ => 1) hexLog_acyclic isOpId_of_hexLog
    fun _ => Nat.one_pos
  rcases @pull_one hexLog "c3" [] true (some "") (fun _ => 1)
      hexLog_acyclic _ _ _ (rfl : startOf [] "c3" (some "") = ((some "", 0), [])) with
    hfirst | ⟨⟨response, hresponse⟩, -⟩
  · rcases hfirst.step (some "") hexLog_acyclic isOpId_of_hexLog 1 with
      ⟨hdecodes, -⟩ | ⟨⟨response, hresponse⟩, -⟩
    · rcases hdecodes (by decide) "" rfl with hempty | hempty
      · revert hempty
        decide
      · revert hempty
        decide
    · exact hnever 2 response hresponse
  · exact hnever 1 response hresponse

/-- From nothing the same history comes in pages of one. -/
theorem pull_delivers_hexLog : Delivers hexLog "c3" [] true none fun _ => 1 := by
  refine (pull_delivers_iff hexLog_acyclic isOpId_of_hexLog).mpr ⟨rfl, .inl rfl, ⟨4, ?_⟩, .inl ?_⟩
  · decide
  · intro b hb
    cases hb

end LexLang.Api
