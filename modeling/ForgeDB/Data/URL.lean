import ForgeDB.Data.Encoding
import Mathlib.Data.List.TakeWhile

/-!
Absolute URLs as bytes. Parsing cuts the fragment, then the query, and decodes the escapes of the path that is
left. A path is parsed to itself exactly if it has none of the three characters that parsing acts on. A server
then cleans the path of its dot segments and repeated slashes.
-/

namespace ForgeDB

structure URL where
  scheme : Bytes
  host : Bytes
  path : Bytes
  rawQuery : Bytes
  deriving DecidableEq, Repr

namespace URL

def percentSign : UInt8 := 0x25

def numberSign : UInt8 := 0x23

def questionMark : UInt8 := 0x3f

def colon : UInt8 := 0x3a

def slash : UInt8 := 0x2f

def dot : UInt8 := 0x2e

/-! ### Cutting at a separator -/

def cut (sep : UInt8) (text : Bytes) : Bytes × Bytes :=
  (text.takeWhile (· ≠ sep), (text.dropWhile (· ≠ sep)).tail)

section

variable {sep : UInt8} {text first rest : Bytes}

theorem cut_absent (absent : sep ∉ text) : cut sep text = (text, []) := by
  have all : ∀ c ∈ text, decide (c ≠ sep) = true := fun c present => decide_eq_true fun same => absent (same ▸ present)
  rw [cut, List.takeWhile_eq_self_iff.mpr all, List.dropWhile_eq_nil_iff.mpr all]
  rfl

theorem cut_here (sep : UInt8) (rest : Bytes) : cut sep (sep :: rest) = ([], rest) := by
  simp [cut]

theorem cut_cons {c : UInt8} (other : c ≠ sep) (rest : Bytes) :
    cut sep (c :: rest) = (c :: (cut sep rest).1, (cut sep rest).2) := by
  simp [cut, other]

theorem cut_append (absent : sep ∉ first) (rest : Bytes) :
    cut sep (first ++ rest) = (first ++ (cut sep rest).1, (cut sep rest).2) := by
  induction first with
  | nil => rfl
  | cons c first ih =>
    rw [List.mem_cons, not_or] at absent
    rw [List.cons_append, cut_cons (Ne.symm absent.1), ih absent.2]
    rfl

theorem cut_append_of_mem (present : sep ∈ first) (rest : Bytes) : (cut sep (first ++ rest)).1 = (cut sep first).1 := by
  induction first with
  | nil => cases present
  | cons c first ih =>
    by_cases here : c = sep
    · rw [here, List.cons_append, cut_here, cut_here]
    · rw [List.cons_append, cut_cons here, cut_cons here, ih ((List.mem_cons.mp present).resolve_left (Ne.symm here))]

theorem cut_length_le (sep : UInt8) (text : Bytes) : (cut sep text).1.length ≤ text.length :=
  (List.takeWhile_sublist _).length_le

theorem not_mem_of_length_le (long : text.length ≤ (cut sep text).1.length) : sep ∉ text := by
  have same : (cut sep text).1 = text := (List.takeWhile_sublist _).eq_of_length_le long
  intro present
  rw [← same] at present
  have other := List.mem_takeWhile_imp present
  exact of_decide_eq_true other rfl

theorem cut_self_iff : (cut sep text).1 = text ↔ sep ∉ text :=
  ⟨fun same => not_mem_of_length_le (Nat.le_of_eq (congrArg List.length same.symm)),
    fun absent => congrArg Prod.fst (cut_absent absent)⟩

end

/-! ### Escapes -/

def fromHex (c : UInt8) : Option UInt8 :=
  if 48 ≤ c ∧ c ≤ 57 then some (c - 48)
  else if 97 ≤ c ∧ c ≤ 102 then some (c - 97 + 10)
  else if 65 ≤ c ∧ c ≤ 70 then some (c - 65 + 10)
  else none

/-- Two hexadecimal digits after a percent sign stand for one byte; anything else after it is malformed. -/
def unescape : Bytes → Option Bytes
  | [] => some []
  | c :: rest =>
    if c = percentSign then
      match rest with
      | high :: low :: rest =>
        match fromHex high, fromHex low with
        | some high, some low => (unescape rest).map ((16 * high + low) :: ·)
        | _, _ => none
      | _ => none
    else (unescape rest).map (c :: ·)

theorem unescape_cons {c : UInt8} (plain : c ≠ percentSign) (rest : Bytes) :
    unescape (c :: rest) = (unescape rest).map (c :: ·) := by
  rw [unescape.eq_def]
  exact if_neg plain

theorem unescape_append {first : Bytes} (plain : percentSign ∉ first) (rest : Bytes) :
    unescape (first ++ rest) = (unescape rest).map (first ++ ·) := by
  induction first with
  | nil => exact Option.map_id'.symm
  | cons c first ih =>
    rw [List.mem_cons, not_or] at plain
    rw [List.cons_append, unescape_cons (Ne.symm plain.1), ih plain.2, Option.map_map]
    rfl

theorem unescape_length {text decoded : Bytes} (decodes : unescape text = some decoded) :
    decoded.length ≤ text.length ∧ (percentSign ∈ text → decoded.length < text.length) := by
  induction text using unescape.induct generalizing decoded with
  | case1 =>
    cases decodes
    exact ⟨Nat.le_refl 0, fun never => absurd never List.not_mem_nil⟩
  | case2 high low rest x y isLow isHigh ih =>
    simp only [unescape, if_true, isHigh, isLow] at decodes
    obtain ⟨later, decodesLater, rfl⟩ := Option.map_eq_some_iff.mp decodes
    have shorter := (ih decodesLater).1
    simp only [List.length_cons]
    omega
  | case3 high low rest malformed | case4 rest short =>
    simp only [unescape, if_true] at decodes
    cases decodes
  | case5 c rest plain ih =>
    rw [unescape_cons plain] at decodes
    obtain ⟨later, decodesLater, rfl⟩ := Option.map_eq_some_iff.mp decodes
    have shorter := ih decodesLater
    rw [List.mem_cons, List.length_cons, List.length_cons]
    exact ⟨Nat.succ_le_succ shorter.1, fun present =>
      Nat.succ_lt_succ (shorter.2 (present.resolve_left (Ne.symm plain)))⟩

/-! ### Parsing -/

def decodedPath (text : Bytes) : Option Bytes := unescape (cut questionMark (cut numberSign text).1).1

/-- `url.Parse` of an absolute URL. The escapes of the path and of the fragment have to be well formed. -/
def parse (text : Bytes) : Option URL :=
  let (text, fragment) := cut numberSign text
  let (text, rawQuery) := cut questionMark text
  let (scheme, rest) := cut colon text
  if [slash, slash] <+: rest then
    let authority := rest.drop 2
    match unescape fragment, unescape (authority.dropWhile (· ≠ slash)) with
    | some _, some path => some ⟨scheme, authority.takeWhile (· ≠ slash), path, rawQuery⟩
    | _, _ => none
  else none

def Plain (text : Bytes) : Prop := percentSign ∉ text ∧ questionMark ∉ text ∧ numberSign ∉ text

instance (text : Bytes) : Decidable (Plain text) := inferInstanceAs (Decidable (_ ∧ _))

theorem decodedPath_plain {text decoded : Bytes} (decodes : decodedPath text = some decoded)
    (long : text.length ≤ decoded.length) : Plain text := by
  have unescaped := unescape_length decodes
  have query := cut_length_le questionMark (cut numberSign text).1
  have fragment := cut_length_le numberSign text
  have noFragment : numberSign ∉ text := not_mem_of_length_le (by omega)
  simp only [cut_absent noFragment] at unescaped
  have noQuery : questionMark ∉ text := not_mem_of_length_le (long.trans unescaped.1)
  rw [cut_absent noQuery] at unescaped
  exact ⟨fun present => absurd (unescaped.2 present) (Nat.not_lt_of_le long), noQuery, noFragment⟩

theorem decodedPath_self_iff {text : Bytes} : decodedPath text = some text ↔ Plain text := by
  constructor
  · exact fun decodes => decodedPath_plain decodes (Nat.le_refl _)
  · intro ⟨noEscape, noQuery, noFragment⟩
    have whole := unescape_append noEscape []
    rw [List.append_nil] at whole
    rw [decodedPath, cut_absent noFragment, cut_absent noQuery, whole, unescape, Option.map_some, List.append_nil]

theorem decodedPath_append {first : Bytes} (plain : Plain first) (rest : Bytes) :
    decodedPath (first ++ rest) = (decodedPath rest).map (first ++ ·) := by
  obtain ⟨noEscape, noQuery, noFragment⟩ := plain
  rw [decodedPath, cut_append noFragment, cut_append noQuery, unescape_append noEscape, decodedPath]

theorem decodedPath_query (path query : Bytes) : decodedPath (path ++ questionMark :: query) = decodedPath path := by
  have other : questionMark ≠ numberSign := by decide
  unfold decodedPath
  by_cases fragment : numberSign ∈ path
  · rw [cut_append_of_mem fragment]
  · rw [cut_append fragment, cut_cons other, cut_absent fragment]
    by_cases earlier : questionMark ∈ path
    · rw [cut_append_of_mem earlier]
    · rw [cut_append earlier, cut_here, cut_absent earlier, List.append_nil]

def queryPart (query : Bytes) : Bytes := if query = [] then [] else questionMark :: query

theorem decodedPath_queryPart (path query : Bytes) : decodedPath (path ++ queryPart query) = decodedPath path := by
  unfold queryPart
  split
  · rw [List.append_nil]
  · exact decodedPath_query path query

theorem Plain.rawQuery {path : Bytes} (plain : Plain path) (query : Bytes) :
    (cut questionMark (cut numberSign (path ++ queryPart query)).1).2 = (cut numberSign query).1 := by
  have other : questionMark ≠ numberSign := by decide
  unfold queryPart
  split
  · rename_i empty
    rw [empty, List.append_nil, cut_absent plain.2.2, cut_absent plain.2.1]
    rfl
  · rw [cut_append plain.2.2, cut_cons other, cut_append plain.2.1, cut_here]

theorem Plain.fragment {path query : Bytes} (plain : Plain path) (absent : numberSign ∉ query) :
    (cut numberSign (path ++ queryPart query)).2 = [] := by
  have nowhere : numberSign ∉ queryPart query := by
    unfold queryPart
    split
    · exact List.not_mem_nil
    · exact List.not_mem_cons_of_ne_of_not_mem (by decide) absent
  rw [cut_append plain.2.2, cut_absent nowhere]

/-! ### Cleaning -/

/-- One segment of a path that is cleaned; those that are kept stand in reverse. -/
def cleanStep (kept : List Bytes) (segment : Bytes) : List Bytes :=
  if segment = [] ∨ segment = [dot] then kept
  else if segment = [dot, dot] then kept.tail
  else segment :: kept

/-- `path.Clean` of a path that starts with a slash. -/
def clean (path : Bytes) : Bytes :=
  let kept := (path.splitOn slash).foldl cleanStep []
  if kept = [] then [slash] else kept.reverse.flatMap (slash :: ·)

/-- `cleanPath` of `net/http`: the path is rooted, cleaned, and a slash at its end is put back. -/
def cleanPath (path : Bytes) : Bytes :=
  let path := if path.head? = some slash then path else slash :: path
  let np := clean path
  if path.getLast? = some slash ∧ np ≠ [slash] then np ++ [slash] else np

def weight (segments : List Bytes) : Nat := (segments.map fun segment => segment.length + 1).sum

theorem weight_splitOn (text : Bytes) : weight (text.splitOn slash) = text.length + 1 := by
  unfold List.splitOn
  induction text with
  | nil => rfl
  | cons c rest ih =>
    rw [List.splitOnP_cons_eq_if_modifyHead, List.length_cons]
    split
    · rw [weight, List.map_cons, List.sum_cons]
      exact (congrArg (0 + 1 + ·) ih).trans (Nat.add_comm _ _)
    · obtain ⟨first, more, shape⟩ := List.exists_cons_of_ne_nil (List.splitOnP_ne_nil (· == slash) rest)
      rw [shape] at ih ⊢
      simp only [weight, List.modifyHead_cons, List.map_cons, List.sum_cons, List.length_cons] at ih ⊢
      omega

theorem weight_cleanStep (kept : List Bytes) (segment : Bytes) :
    weight (cleanStep kept segment) ≤ weight kept + weight [segment] := by
  unfold cleanStep
  split
  · exact Nat.le_add_right _ _
  split
  · cases kept <;> simp only [weight, List.tail_nil, List.tail_cons, List.map_cons, List.sum_cons] <;> omega
  · simp only [weight, List.map_cons, List.map_nil, List.sum_cons, List.sum_nil]
    omega

theorem weight_clean (kept segments : List Bytes) :
    weight (segments.foldl cleanStep kept) ≤ weight kept + weight segments := by
  induction segments generalizing kept with
  | nil => exact Nat.le_refl _
  | cons segment more ih =>
    have step := weight_cleanStep kept segment
    have rest := ih (cleanStep kept segment)
    simp only [List.foldl_cons, weight, List.map_cons, List.map_nil, List.sum_cons, List.sum_nil] at step rest ⊢
    omega

theorem clean_length_le {path segments : Bytes}
    (kept : (path.splitOn slash).foldl cleanStep [] = (segments.splitOn slash).foldl cleanStep []) :
    (clean path).length ≤ segments.length + 1 := by
  have bound := weight_clean [] (segments.splitOn slash)
  rw [weight_splitOn, ← kept] at bound
  unfold clean
  dsimp only
  split
  · exact Nat.le_add_left 1 _
  · rw [List.length_flatMap, List.map_reverse, List.sum_reverse]
    exact bound.trans (Nat.le_of_eq (Nat.zero_add _))

theorem splitOn_slash (below : Bytes) : (slash :: below).splitOn slash = [] :: below.splitOn slash := by
  unfold List.splitOn
  rw [List.splitOnP_cons_eq_if_modifyHead, if_pos (show (slash == slash) = true from rfl)]

theorem cleanPath_length_le (below : Bytes) : (cleanPath (slash :: below)).length ≤ below.length + 1 := by
  simp only [cleanPath, List.head?_cons, if_true]
  split
  · rename_i ends
    rcases List.eq_nil_or_concat below with rfl | ⟨start, c, rfl⟩
    · exact absurd (by decide) ends.2
    -- The slash at the end made an empty segment, which cleaning has dropped.
    obtain rfl : c = slash := by
      have last := ends.1
      rw [List.concat_eq_append, ← List.cons_append, List.getLast?_concat] at last
      exact Option.some.inj last
    have kept : ((slash :: start.concat slash).splitOn slash).foldl cleanStep [] =
        (start.splitOn slash).foldl cleanStep [] := by
      rw [splitOn_slash, List.concat_eq_append]
      unfold List.splitOn
      rw [@List.splitOnP_append_cons _ (· == slash) start [] slash rfl, List.foldl_cons, List.foldl_append]
      rfl
    have short := clean_length_le kept
    rw [List.length_append, List.length_concat]
    exact Nat.succ_le_succ short
  · refine clean_length_le ?_
    rw [splitOn_slash]
    rfl

structure Origin where
  scheme : Bytes
  host : Bytes
  schemePlain : Plain scheme ∧ colon ∉ scheme
  hostPlain : Plain host ∧ slash ∉ host
  named : host ≠ []

namespace Origin

def text (o : Origin) : Bytes := o.scheme ++ [colon, slash, slash] ++ o.host

theorem text_plain (o : Origin) : Plain o.text := by
  obtain ⟨⟨schemeEscape, schemeQuery, schemeFragment⟩, _⟩ := o.schemePlain
  obtain ⟨⟨hostEscape, hostQuery, hostFragment⟩, _⟩ := o.hostPlain
  simp only [Plain, text, List.mem_append, not_or]
  exact ⟨⟨⟨schemeEscape, by decide⟩, hostEscape⟩, ⟨⟨schemeQuery, by decide⟩, hostQuery⟩, ⟨schemeFragment, by decide⟩,
    hostFragment⟩

theorem parse_text (o : Origin) {rest : Bytes} (rooted : [slash] <+: rest) :
    parse (o.text ++ rest) = match unescape (cut numberSign rest).2, decodedPath rest with
      | some _, some path => some ⟨o.scheme, o.host, path, (cut questionMark (cut numberSign rest).1).2⟩
      | _, _ => none := by
  obtain ⟨below, rfl⟩ := rooted
  rw [List.singleton_append]
  obtain ⟨_, noQuery, noFragment⟩ := o.text_plain
  have inHost : ∀ c ∈ o.host, decide (c ≠ slash) = true :=
    fun c present => decide_eq_true fun same => o.hostPlain.2 (same ▸ present)
  have fragment := cut_cons (show slash ≠ numberSign by decide) below
  have query := cut_cons (show slash ≠ questionMark by decide) (cut numberSign below).1
  unfold parse decodedPath
  rw [cut_append noFragment, fragment]
  simp only []
  rw [cut_append noQuery, query]
  simp only [text, List.append_assoc]
  rw [cut_append o.schemePlain.2, List.cons_append, cut_here]
  simp only [List.cons_append, List.nil_append]
  rw [if_pos (by simp)]
  simp only [List.drop_succ_cons, List.drop_zero, List.append_nil, List.takeWhile_append_of_pos inHost,
    List.dropWhile_append_of_pos inHost, List.takeWhile_cons, List.dropWhile_cons, ne_eq, not_true, decide_false,
    Bool.false_eq_true, if_false]

theorem decodedPath_of_parse (o : Origin) {rest : Bytes} (rooted : [slash] <+: rest) {url : URL}
    (parses : parse (o.text ++ rest) = some url) : decodedPath rest = some url.path := by
  rw [o.parse_text rooted] at parses
  split at parses
  · rename_i decodes
    cases parses
    exact decodes
  · cases parses

theorem parse_iff (o : Origin) {path : Bytes} (rooted : [slash] <+: path) (query : Bytes) :
    (∃ url, parse (o.text ++ (path ++ queryPart query)) = some url ∧ url.path = path ∧ url.rawQuery = query) ↔
      Plain path ∧ numberSign ∉ query := by
  rw [o.parse_text (rooted.trans (List.prefix_append path _)), decodedPath_queryPart]
  constructor
  · intro ⟨url, found, same, sameQuery⟩
    split at found
    · rename_i decoded _ decodes
      cases found
      have plain : Plain path := decodedPath_self_iff.mp (decodes.trans (congrArg some same))
      exact ⟨plain, cut_self_iff.mp ((plain.rawQuery query).symm.trans sameQuery)⟩
    · cases found
  · intro ⟨plain, noFragment⟩
    rw [decodedPath_self_iff.mpr plain, plain.fragment noFragment]
    exact ⟨_, rfl, rfl, (plain.rawQuery query).trans (cut_self_iff.mpr noFragment)⟩

end Origin

end URL

end ForgeDB
