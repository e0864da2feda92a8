import MinerWatch.Device.Api
import MinerWatch.Proofs.Decimal.FreeText
/-!
Reading the query of an address.

A query is split at its ampersands, each part at its first equals sign, and both sides are
percent-decoded: on the bytes of the text, which must be text again afterwards. The definitions here
take the reader's side; `queries_are_read_back` says that this reader undoes `withQuery`.

The replacements of `escapeQuery` run one after the other over the whole text. As each of them
works character by character, so does their composition (`escapeQuery_eq`), and what it makes of one
character is plain to see (`escapeOf`).
-/

namespace MinerWatch.Text

/-! ### The reader's side -/

/-- The value of a hexadecimal digit in either case. -/
def hexDigit? (b : UInt8) : Option UInt8 :=
  if 0x30 ≤ b ∧ b ≤ 0x39 then some (b - 0x30)
  else if 0x41 ≤ b ∧ b ≤ 0x46 then some (b - 0x37)
  else if 0x61 ≤ b ∧ b ≤ 0x66 then some (b - 0x57)
  else none

/-- A percent sign and two hexadecimal digits stand for a byte. Every other byte is itself. -/
def unescapeBytes : List UInt8 → List UInt8
  | [] => []
  | 0x25 :: high :: low :: rest =>
    match hexDigit? high, hexDigit? low with
    | some h, some l => (16 * h + l) :: unescapeBytes rest
    | _, _ => 0x25 :: unescapeBytes (high :: low :: rest)
  | b :: rest => b :: unescapeBytes rest

/-- A key or value without its escapes, if it is a text. -/
def unescape? (cs : List Char) : Option String :=
  String.fromUTF8? (unescapeBytes (cs.flatMap String.utf8EncodeChar)).toByteArray

/-- The text before a mark and the one behind it. -/
def cut (mark : Char) (cs : List Char) : List Char × List Char :=
  (cs.takeWhile (· ≠ mark), (cs.dropWhile (· ≠ mark)).drop 1)

/-- The key and the value of a part of a query. -/
def readPart? (cs : List Char) : Option (String × String) := do
  let key ← unescape? (cut '=' cs).1
  let value ← unescape? (cut '=' cs).2
  some (key, value)

/-- The parameters of a query in order. -/
def readQuery? (query : List Char) : Option (List (String × String)) :=
  (query.splitOn '&').mapM readPart?

/-- What stands behind the question mark of an address. -/
def queryOf (url : String) : List Char :=
  (cut '?' url.toList).2

/-! ### One character -/

/-- A character as it stands in a query. -/
def escapeOf : Char → List Char
  | '%' => ['%', '2', '5']
  | ' ' => ['%', '2', '0']
  | '&' => ['%', '2', '6']
  | '=' => ['%', '3', 'D']
  | '?' => ['%', '3', 'F']
  | '#' => ['%', '2', '3']
  | c => [c]

/-- The characters that a query must not have in a key or value. -/
def reserved : List Char := [' ', '&', '=', '?', '#']

variable {c d mark : Char} {cs ds query : List Char} {params : List (String × String)}

theorem replaceChar_append (new : List Char) :
    replaceChar c new (cs ++ ds) = replaceChar c new cs ++ replaceChar c new ds :=
  List.flatMap_append

theorem escapeQuery_append : escapeQuery (cs ++ ds) = escapeQuery cs ++ escapeQuery ds := by
  simp only [escapeQuery, replaceChar_append]

theorem replaceChar_of_ne (new : List Char) (h : d ≠ c) : replaceChar c new [d] = [d] := by
  simp [replaceChar, h]

theorem escapeQuery_singleton (c : Char) : escapeQuery [c] = escapeOf c := by
  unfold escapeOf
  split
  case h_7 percent space ampersand equals question hash =>
    simp only [escapeQuery, replaceChar_of_ne _ percent, replaceChar_of_ne _ space,
      replaceChar_of_ne _ ampersand, replaceChar_of_ne _ equals, replaceChar_of_ne _ question,
      replaceChar_of_ne _ hash]
  all_goals decide

/-- **The replacements one after the other are a single pass.** -/
theorem escapeQuery_eq (cs : List Char) : escapeQuery cs = cs.flatMap escapeOf := by
  induction cs with
  | nil => rfl
  | cons c cs ih =>
      rw [← List.singleton_append, escapeQuery_append, escapeQuery_singleton, ih]
      rfl

theorem not_reserved_of_mem_escapeOf (mem : d ∈ escapeOf c) : d ∉ reserved := by
  unfold escapeOf at mem
  split at mem
  case h_7 percent space ampersand equals question hash =>
    rw [List.mem_singleton] at mem
    simp only [reserved, mem, List.mem_cons, List.not_mem_nil, or_false, not_or]
    exact ⟨space, ampersand, equals, question, hash⟩
  all_goals
    simp only [List.mem_cons, List.not_mem_nil, or_false] at mem
    obtain rfl | rfl | rfl := mem <;> decide

theorem not_reserved_of_mem_escapeQuery (mem : d ∈ escapeQuery cs) : d ∉ reserved := by
  rw [escapeQuery_eq] at mem
  obtain ⟨c, -, inside⟩ := List.mem_flatMap.mp mem
  exact not_reserved_of_mem_escapeOf inside

/-! ### Keys and values -/

/-- Only the percent sign has the byte of the percent sign. -/
theorem eq_percent_of_mem (mem : 0x25 ∈ String.utf8EncodeChar c) : c = '%' := by
  have number : c.val.toNat = 0x25 := by
    have byte (n : Nat) : 0x25 = UInt8.ofNat n ↔ n % 256 = 0x25 := by
      rw [← UInt8.toNat_inj, UInt8.toNat_ofNat', eq_comm]
      rfl
    simp only [String.utf8EncodeChar] at mem
    split_ifs at mem <;> simp only [List.mem_cons, List.not_mem_nil, or_false, byte] at mem <;> omega
  exact Char.ext (UInt32.toNat_inj.mp number)

theorem unescapeBytes_cons {b : UInt8} (other : b ≠ 0x25) (rest : List UInt8) :
    unescapeBytes (b :: rest) = b :: unescapeBytes rest := by
  rw [unescapeBytes]
  intro _ _ _ same
  exact absurd same other

theorem unescapeBytes_append {bs : List UInt8} (others : 0x25 ∉ bs) (rest : List UInt8) :
    unescapeBytes (bs ++ rest) = bs ++ unescapeBytes rest := by
  induction bs with
  | nil => rfl
  | cons b bs ih =>
      rw [List.mem_cons, not_or] at others
      rw [List.cons_append, unescapeBytes_cons (Ne.symm others.1), ih others.2, List.cons_append]

/-- The bytes of an escaped character are those of the character again. -/
theorem unescapeBytes_escapeOf (c : Char) (rest : List UInt8) :
    unescapeBytes ((escapeOf c).flatMap String.utf8EncodeChar ++ rest) =
      String.utf8EncodeChar c ++ unescapeBytes rest := by
  unfold escapeOf
  split
  case h_7 percent _ _ _ _ _ =>
    rw [List.flatMap_singleton]
    exact unescapeBytes_append (fun mem => percent (eq_percent_of_mem mem)) rest
  all_goals rfl

theorem unescapeBytes_escapeQuery (cs : List Char) :
    unescapeBytes ((escapeQuery cs).flatMap String.utf8EncodeChar) =
      cs.flatMap String.utf8EncodeChar := by
  rw [escapeQuery_eq]
  induction cs with
  | nil => rfl
  | cons c cs ih =>
      rw [List.flatMap_cons, List.flatMap_append, unescapeBytes_escapeOf, ih, List.flatMap_cons]

/-- **A key or value is decoded to what it was.** -/
theorem unescape?_escapeQuery (s : String) : unescape? (escapeQuery s.toList) = some s := by
  rw [unescape?, unescapeBytes_escapeQuery]
  have valid : (s.toList.flatMap String.utf8EncodeChar).toByteArray.IsValidUTF8 :=
    (String.ofList s.toList).isValidUTF8
  rw [String.fromUTF8?, dif_pos valid]
  exact congrArg some String.ofList_toList

theorem escapeQuery_injective : Function.Injective escapeQuery := by
  intro cs ds same
  have decoded := congrArg unescape? same
  rw [← String.toList_ofList (l := cs), ← String.toList_ofList (l := ds), unescape?_escapeQuery,
    unescape?_escapeQuery] at decoded
  exact String.ofList_injective (Option.some.inj decoded)

/-! ### Parts and queries -/

theorem cut_append (absent : mark ∉ cs) : cut mark (cs ++ mark :: ds) = (cs, ds) := by
  have others : ∀ c ∈ cs, decide (c ≠ mark) = true := by
    intro c mem
    rw [decide_eq_true_eq]
    exact fun same => absent (same ▸ mem)
  rw [cut, List.takeWhile_append_of_pos others, List.dropWhile_append_of_pos others]
  simp

/-- A key ends at the equals sign that follows it, so a part is read whatever its value is. -/
theorem readPart?_queryPart (param : String × String) : readPart? (queryPart param) = some param := by
  have absent : '=' ∉ escapeQuery param.1.toList := fun mem =>
    not_reserved_of_mem_escapeQuery mem (by decide)
  rw [readPart?, queryPart, cut_append absent, unescape?_escapeQuery, unescape?_escapeQuery]
  rfl

/-- In a part the equals sign is the only reserved character. -/
theorem not_mem_queryPart (param : String × String) (mark : Char) (listed : mark ∈ reserved)
    (other : mark ≠ '=') : mark ∉ queryPart param := by
  intro mem
  rcases List.mem_append.mp mem with key | rest
  · exact not_reserved_of_mem_escapeQuery key listed
  · cases rest with
    | head => exact other rfl
    | tail _ value => exact not_reserved_of_mem_escapeQuery value listed

theorem mapM_readPart? (params : List (String × String)) :
    (params.map queryPart).mapM readPart? = some params := by
  induction params with
  | nil => rfl
  | cons param params ih =>
      rw [List.map_cons, List.mapM_cons, readPart?_queryPart, ih]
      rfl

/-- **The parameters of a query are read back in order.** -/
theorem readQuery?_intercalate (filled : params ≠ []) :
    readQuery? (['&'].intercalate (params.map queryPart)) = some params := by
  have whole : ∀ part ∈ params.map queryPart, '&' ∉ part := by
    intro part mem
    obtain ⟨param, -, rfl⟩ := List.mem_map.mp mem
    exact not_mem_queryPart param '&' (by decide) (by decide)
  rw [readQuery?, List.splitOn_intercalate '&' whole (by simpa using filled), mapM_readPart?]

theorem not_mem_intercalate {parts : List (List Char)} (other : d ≠ mark)
    (absent : ∀ part ∈ parts, d ∉ part) : d ∉ [mark].intercalate parts := by
  induction parts with
  | nil => exact List.not_mem_nil
  | cons part parts ih =>
      rw [List.forall_mem_cons] at absent
      cases parts with
      | nil => simpa using absent.1
      | cons next parts =>
          rw [List.intercalate_cons_cons]
          simp only [List.mem_append, List.mem_singleton, not_or]
          exact ⟨⟨absent.1, other⟩, ih absent.2⟩

/-- Beside ampersands and equals signs a query has no reserved character. -/
theorem not_mem_query (params : List (String × String)) (listed : d ∈ reserved) (noEquals : d ≠ '=')
    (noAmpersand : d ≠ '&') : d ∉ ['&'].intercalate (params.map queryPart) := by
  apply not_mem_intercalate noAmpersand
  intro part mem
  obtain ⟨param, -, rfl⟩ := List.mem_map.mp mem
  exact not_mem_queryPart param d listed noEquals

/-! ### Addresses -/

/-- The address is a base with a query behind it that has these parameters. -/
structure Queries (url base : String) (query : List Char) (params : List (String × String)) : Prop where
  text : url.toList = base.toList ++ '?' :: query
  reads : readQuery? query = some params
  noQuestion : '?' ∉ query
  noHash : '#' ∉ query

theorem queries_withQuery (base : String) (filled : params ≠ []) :
    Queries (withQuery base params) base (['&'].intercalate (params.map queryPart)) params where
  text := by
    rw [withQuery, if_neg (by simpa using filled)]
    simp
  reads := readQuery?_intercalate filled
  noQuestion := not_mem_query params (by decide) (by decide) (by decide)
  noHash := not_mem_query params (by decide) (by decide) (by decide)

section

variable {url base : String}

/-- Behind a base without marks the query is where it is looked for. -/
theorem Queries.queryOf_eq (h : Queries url base query params) (noQuestion : '?' ∉ base.toList) :
    queryOf url = query := by
  rw [queryOf, h.text, cut_append noQuestion]

theorem Queries.count_eq (h : Queries url base query params) (noQuestion : '?' ∉ base.toList) :
    url.toList.count '?' = 1 := by
  rw [h.text, List.count_append, List.count_cons_self, List.count_eq_zero.mpr noQuestion,
    List.count_eq_zero.mpr h.noQuestion]

theorem Queries.not_mem (h : Queries url base query params) (noHash : '#' ∉ base.toList) :
    '#' ∉ url.toList := by
  rw [h.text, List.mem_append, List.mem_cons, not_or, not_or]
  exact ⟨noHash, by decide, h.noHash⟩

end

/-- The address asks at a base for what is new since an instant. -/
def Asks (url base : String) (start : Millis) : Prop :=
  ∃ query text, Queries url base query [("ts", text)] ∧ Decimal.readWord? text.toList = some start

theorem asks_sinceQuery (base : String) (start : Millis) :
    Asks (withQuery base (DeviceApi.sinceQuery start)) base start :=
  ⟨_, _, queries_withQuery base (List.cons_ne_nil _ _), Decimal.readWord?_natText start⟩

/-- **Every query is undone by reading it.** Behind a base without marks of its own the parameters are
found and read back in order; keys and values are escaped in a single pass that loses nothing; and
the two addresses that ask for what is new since an instant name that instant. -/
theorem queries_are_read_back :
    (∀ (base : String) (params : List (String × String)), params ≠ [] →
      '?' ∉ base.toList → '#' ∉ base.toList →
        base.toList <+: (withQuery base params).toList ∧
        (withQuery base params).toList.count '?' = 1 ∧
        '#' ∉ (withQuery base params).toList ∧
        readQuery? (queryOf (withQuery base params)) = some params) ∧
    (∀ cs, escapeQuery cs = cs.flatMap escapeOf) ∧ Function.Injective escapeQuery ∧
    ∀ (api : DeviceApi) (start : Millis),
      Asks (api.infoUrl start) (api.origin ++ "/api/system/info") start ∧
      Asks (api.historyUrl start) (api.origin ++ "/api/history/data") start := by
  refine ⟨fun base params filled noQuestion noHash => ?_, escapeQuery_eq, escapeQuery_injective,
    fun api start => ⟨asks_sinceQuery _ start, asks_sinceQuery _ start⟩⟩
  have queries := queries_withQuery base filled
  refine ⟨⟨_, queries.text.symm⟩, queries.count_eq noQuestion, queries.not_mem noHash, ?_⟩
  rw [queries.queryOf_eq noQuestion, queries.reads]

/-- Keys and values that are empty, or look like escapes and marks. -/
theorem tangled_query_is_read_back :
    readQuery? (queryOf (withQuery "/api" [("a&b", "100%"), ("", "%26=?#"), ("é", "")])) =
      some [("a&b", "100%"), ("", "%26=?#"), ("é", "")] :=
  (queries_are_read_back.1 "/api" [("a&b", "100%"), ("", "%26=?#"), ("é", "")] (by decide) (by decide)
    (by decide)).2.2.2

end MinerWatch.Text
