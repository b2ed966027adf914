import ForgeDB.Data.URL

/-!
Keys in URLs. The client puts the key behind the path of the API as it is, and the gateway puts the decoded path
behind the address of a backend. Neither escapes it, so a key arrives exactly if parsing a URL does not act on
it and the server's mux need not clean its path.
-/

namespace ForgeDB.Gateway

open URL

def trimRight (c : UInt8) (text : Bytes) : Bytes := (text.reverse.dropWhile (· = c)).reverse

def trimPrefix (start text : Bytes) : Bytes := if start <+: text then text.drop start.length else text

def kvPath : Bytes := [0x2f, 0x6b, 0x76, 0x2f]

def requestURL (next key : Bytes) : Bytes := trimRight slash next ++ kvPath ++ key

def kvKey (path : Bytes) : Bytes := trimPrefix kvPath path

/-- The path with which `http.ServeMux` calls `handleKV`, which is registered for `/kv/`. A path that is not clean is
redirected to the clean one, and `/kv` to `/kv/`. -/
def muxPath (path : Bytes) : Option Bytes :=
  let path := cleanPath path
  if kvPath <+: path then some path else if path ++ [slash] = kvPath then some kvPath else none

/-- The key that `handleKV` goes on with; an empty one is refused. -/
def handleKVKey (path : Bytes) : Option Bytes :=
  let key := kvKey path
  if key = [] then none else some key

def servedKey (text : Bytes) : Option Bytes := (parse text).bind fun url => (muxPath url.path).bind handleKVKey

def forwardTarget (addr path rawQuery : Bytes) : Bytes :=
  let target := trimRight slash addr ++ path
  if rawQuery ≠ [] then target ++ (questionMark :: rawQuery) else target

theorem kvPath_plain : Plain kvPath := by decide

theorem kvKey_append (key : Bytes) : kvKey (kvPath ++ key) = key := by
  rw [kvKey, trimPrefix, if_pos (List.prefix_append kvPath key), List.drop_left]

theorem handleKVKey_eq_some {path key : Bytes} (under : kvPath <+: path) :
    handleKVKey path = some key ↔ key ≠ [] ∧ path = kvPath ++ key := by
  obtain ⟨own, rfl⟩ := under
  simp only [handleKVKey, kvKey_append, List.append_cancel_left_eq]
  split
  · rename_i empty
    exact ⟨nofun, fun same => absurd (same.2.symm.trans empty) same.1⟩
  · rename_i present
    rw [Option.some.injEq]
    exact ⟨fun same => ⟨same ▸ present, same⟩, And.right⟩

theorem muxPath_eq_some {path key : Bytes} :
    (muxPath path).bind handleKVKey = some key ↔ key ≠ [] ∧ cleanPath path = kvPath ++ key := by
  simp only [muxPath]
  split
  · rename_i under
    exact handleKVKey_eq_some under
  · rename_i outside
    have never : ¬(key ≠ [] ∧ cleanPath path = kvPath ++ key) := fun found =>
      outside (found.2 ▸ List.prefix_append kvPath key)
    split
    · have refused : (some kvPath).bind handleKVKey = none := by decide
      exact iff_of_false (by rw [refused]; exact (Option.some_ne_none key).symm) never
    · exact iff_of_false (Option.some_ne_none key).symm never

theorem muxPath_own_iff {path : Bytes} (under : kvPath <+: path) :
    (muxPath path).bind handleKVKey = handleKVKey path ↔ cleanPath path = path := by
  constructor
  · intro served
    cases own : handleKVKey path with
    | some key =>
      obtain ⟨-, whole⟩ := (handleKVKey_eq_some under).mp own
      rw [own] at served
      rw [(muxPath_eq_some.mp served).2, whole]
    | none =>
      -- Only the path of the empty key has none, and it is clean.
      obtain ⟨key, rfl⟩ := under
      by_cases empty : key = []
      · subst empty
        decide
      · rw [(handleKVKey_eq_some (List.prefix_append kvPath key)).mpr ⟨empty, rfl⟩] at own
        cases own
  · intro cleaned
    simp only [muxPath, cleaned, if_pos under, Option.bind_some]

theorem trimRight_origin (o : Origin) (slashes : Nat) :
    trimRight slash (o.text ++ List.replicate slashes slash) = o.text := by
  obtain ⟨start, last, ends⟩ := List.eq_nil_or_concat o.host |>.resolve_left o.named
  have whole : o.text = o.scheme ++ [colon, slash, slash] ++ start ++ [last] := by
    rw [Origin.text, ends, List.concat_eq_append, List.append_assoc, List.append_assoc, List.append_assoc]
  have other : last ≠ slash := by
    intro same
    apply o.hostPlain.2
    rw [ends, same, List.concat_eq_append]
    exact List.mem_append_right start (List.mem_singleton_self slash)
  have trimmed : ∀ c ∈ (List.replicate slashes slash), decide (c = slash) = true :=
    fun c present => decide_eq_true (List.eq_of_mem_replicate present)
  rw [trimRight, List.reverse_append, List.reverse_replicate, List.dropWhile_append_of_pos trimmed, whole,
    List.reverse_append, List.reverse_singleton, List.singleton_append, List.dropWhile_cons_of_neg (by simp [other]),
    List.reverse_cons, List.reverse_reverse]

theorem forwardTarget_origin (o : Origin) (slashes : Nat) (path rawQuery : Bytes) :
    forwardTarget (o.text ++ List.replicate slashes slash) path rawQuery = o.text ++ (path ++ queryPart rawQuery) := by
  unfold forwardTarget queryPart
  rw [trimRight_origin]
  by_cases empty : rawQuery = []
  · simp only [empty, ne_eq, not_true, if_false, if_true, List.append_nil]
  · simp only [empty, ne_eq, not_false_eq_true, if_true, if_false, List.append_assoc]

theorem servedKey_iff (o : Origin) {key : Bytes} (present : key ≠ []) :
    servedKey (o.text ++ (kvPath ++ key)) = some key ↔ Plain key ∧ cleanPath (kvPath ++ key) = kvPath ++ key := by
  have below : [slash] <+: kvPath ++ key := ⟨_, rfl⟩
  constructor
  · intro arrives
    obtain ⟨url, found, served⟩ := Option.bind_eq_some_iff.mp arrives
    have decodes := o.decodedPath_of_parse below found
    rw [decodedPath_append kvPath_plain] at decodes
    obtain ⟨own, decodesOwn, same⟩ := Option.map_eq_some_iff.mp decodes
    obtain ⟨-, cleaned⟩ := muxPath_eq_some.mp served
    rw [← same] at cleaned
    -- Neither decoding nor cleaning adds a byte, so neither has taken one away.
    have short : (cleanPath (kvPath ++ own)).length ≤ (kvPath ++ own).length := cleanPath_length_le _
    rw [cleaned, List.length_append, List.length_append] at short
    have plain := decodedPath_plain decodesOwn (by omega)
    obtain rfl := Option.some.inj (decodesOwn.symm.trans (decodedPath_self_iff.mpr plain))
    exact ⟨plain, cleaned⟩
  · intro ⟨plain, cleaned⟩
    have whole : Plain (kvPath ++ key) := by
      rw [← decodedPath_self_iff, decodedPath_append kvPath_plain, decodedPath_self_iff.mpr plain, Option.map_some]
    obtain ⟨url, found, same, _⟩ := (o.parse_iff below []).mpr ⟨whole, List.not_mem_nil⟩
    rw [queryPart, if_pos rfl, List.append_nil] at found
    rw [servedKey, found, Option.bind_some, same]
    exact muxPath_eq_some.mpr ⟨present, cleaned⟩

/-- A key gets to the node, and a path and a query through the gateway, exactly if they have none of the characters that
parsing a URL acts on; and `handleKV` then goes on with the key of the path exactly if the path is clean. -/
theorem keys_survive_iff (o : Origin) (slashes : Nat) :
    let addr := o.text ++ List.replicate slashes slash
    (∀ key : Bytes, key ≠ [] → (servedKey (requestURL addr key) = some key ↔
        Plain key ∧ cleanPath (kvPath ++ key) = kvPath ++ key)) ∧
      ∀ path rawQuery : Bytes, kvPath <+: path →
        ((∃ url, parse (forwardTarget addr path rawQuery) = some url ∧ url.path = path ∧ url.rawQuery = rawQuery) ↔
          Plain path ∧ numberSign ∉ rawQuery) ∧
        (Plain path ∧ numberSign ∉ rawQuery →
          (servedKey (forwardTarget addr path rawQuery) = handleKVKey path ↔ cleanPath path = path)) := by
  intro addr
  refine ⟨fun key present => ?_, fun path rawQuery under => ?_⟩
  · rw [requestURL, trimRight_origin, List.append_assoc]
    exact servedKey_iff o present
  · have rooted : [slash] <+: kvPath := by decide
    have passes := o.parse_iff (rooted.trans under) rawQuery
    rw [forwardTarget_origin]
    refine ⟨passes, fun plain => ?_⟩
    obtain ⟨url, found, same, _⟩ := passes.mpr plain
    rw [servedKey, found, Option.bind_some, same]
    exact muxPath_own_iff under

def forgedb1 : Origin where
  scheme := [0x68, 0x74, 0x74, 0x70]
  host := [0x66, 0x6f, 0x72, 0x67, 0x65, 0x64, 0x62, 0x2d, 0x31, 0x3a, 0x38, 0x30, 0x38, 0x30]
  schemePlain := by decide
  hostPlain := by decide
  named := by decide

/-- The keys "a?b" and "a#b" are both taken for "a", and "a%" is not even sent. The mux makes "a/b" of "a//b" and "b" of
"a/../b", and "." and ".." name no key at all. -/
theorem keys_lost :
    [[0x61, questionMark, 0x62], [0x61, numberSign, 0x62], [0x61, percentSign], [0x61, slash, slash, 0x62],
        [0x61, slash, dot, dot, slash, 0x62], [dot], [dot, dot]].map
        (fun key => (servedKey (requestURL forgedb1.text key),
          servedKey (forwardTarget forgedb1.text (kvPath ++ key) []))) =
      [(some [0x61], some [0x61]), (some [0x61], some [0x61]), (none, none),
        (some [0x61, slash, 0x62], some [0x61, slash, 0x62]), (some [0x62], some [0x62]), (none, none),
        (none, none)] := by
  decide

end ForgeDB.Gateway
