import Mathlib.Data.List.TakeDrop
import Mic3.Computation
import Mic3.Lifecycle
import Mic3.Platform

/-! What the publisher encodes, the consumer decodes: a request to its run, every other published event to a
rejection. -/
namespace Mic3

/-- What the standard library's codecs do with the publisher's envelopes. -/
structure External.Codecs (x : External) : Prop where
  loads : ∀ event offset, event.eventType ∈ publishedTypes →
    x.decoders.jsonLoads (utf8 ((envelope x.isoformat event offset).dumps false true)) =
      some (envelope x.isoformat event offset)
  uuid : ∀ id : UUID, x.decoders.uuid id.str = some id
  aware : ∀ t offset, ∃ created, x.decoders.fromisoformat (x.isoformat ⟨t, some offset⟩) = some created ∧
    created.utcoffset.isSome

section Codecs
variable {x : External} {event : OutboxEvent} {offset : ℤ}

/-- The encoding reads nothing that publication changes. -/
theorem encodeEvent_congr {event' : OutboxEvent} (h : event'.inserted = event.inserted) :
    encodeEvent x.isoformat event' offset = encodeEvent x.isoformat event offset := by
  have hsame : encodeEvent x.isoformat event'.inserted offset = encodeEvent x.isoformat event.inserted offset := by
    rw [h]
  exact hsame

theorem OutboxEvent.inserted_eq {event' : OutboxEvent} (h : event'.inserted = event.inserted) :
    event'.eventType = event.eventType ∧ event'.runId = event.runId := by
  obtain ⟨-, hrun, htype, -⟩ := (OutboxEvent.mk.injEq ..).mp h
  exact ⟨htype, hrun⟩

theorem External.Codecs.identifiers (hx : x.Codecs) :
    x.decoders.identifiers (envelope x.isoformat event offset) = some event.runId := by
  obtain ⟨created, hcreated, haware⟩ := hx.aware event.createdAt offset
  obtain ⟨utcoffset, hutcoffset⟩ := Option.isSome_iff_exists.mp haware
  have hevent : Decoders.text ((envelope x.isoformat event offset).get? "event_id") = some event.id.str := rfl
  have hrun : Decoders.text ((envelope x.isoformat event offset).get? "run_id") = some event.runId.str := rfl
  have htime : Decoders.text ((envelope x.isoformat event offset).get? "created_at") =
      some (x.isoformat ⟨event.createdAt, some offset⟩) := rfl
  simp only [Decoders.identifiers, hevent, hrun, htime, hx.uuid, hcreated, hutcoffset, Option.bind_eq_bind,
    Option.bind_some]
  rfl

/-- A request decodes to its run; every other event that is published is rejected. -/
theorem External.Codecs.decodeRequest_encodeEvent (hx : x.Codecs) (ht : event.eventType ∈ publishedTypes) :
    x.decoders.decodeRequest (encodeEvent x.isoformat event offset) =
      if event.eventType = "run.requested" then .run event.runId
      else .rejection ⟨"unsupported_event", "Expected run.requested."⟩ := by
  have hvalue : (encodeEvent x.isoformat event offset).value.bind x.decoders.jsonLoads =
      some (envelope x.isoformat event offset) := hx.loads event offset ht
  have hversion : (envelope x.isoformat event offset).get? "schema_version" = some (.int 1) := rfl
  have htype : (envelope x.isoformat event offset).get? "event_type" = some (.str event.eventType) := rfl
  have henvelope : x.decoders.decodeRequest (encodeEvent x.isoformat event offset) =
      x.decoders.decodeEnvelope (some (utf8 event.runId.str.toList)) (envelope x.isoformat event offset) := by
    unfold Decoders.decodeRequest
    rw [hvalue]
    rfl
  rw [henvelope, Decoders.decodeEnvelope, if_neg (not_not.mpr hversion), htype, hx.identifiers]
  by_cases hrequest : event.eventType = "run.requested"
  · simp [hrequest]
  · simp [hrequest]

end Codecs

/-! The demonstration's codecs read every published envelope back. -/

namespace Demo

/-- ASCII characters that JSON writes as they are. -/
def Legible (text : List Char) : Prop := ∀ c ∈ text, Json.escape true c = [c] ∧ c ≠ '"' ∧ c.toNat < 128

instance (text : List Char) : Decidable (Legible text) := List.decidableBAll _ text

theorem legible_hexText (w n : ℕ) : Legible (hexText w n) := by
  induction w generalizing n with
  | zero => exact List.forall_mem_nil _
  | succ w ih =>
    have hdigit : ∀ m < 16, Legible [Json.hexDigit m] := by decide
    exact List.forall_mem_append.mpr ⟨ih (n / 16), hdigit (n % 16) (Nat.mod_lt n (by decide))⟩

theorem legible_str (u : UUID) : Legible u.str.toList := by
  have hdigits := legible_hexText 32 u.toNat
  have hpart (text : List Char) (hsub : text ⊆ hexText 32 u.toNat) : Legible text := fun c hc => hdigits c (hsub hc)
  have hgroup (text : List Char) (rest : List Char) (htext : Legible text) (hrest : Legible rest) :
      Legible (text ++ '-' :: rest) :=
    List.forall_mem_append.mpr ⟨htext, List.forall_mem_cons.mpr ⟨by decide, hrest⟩⟩
  rw [UUID.str, String.toList_ofList, UUID.chars]
  simp only [List.cons_append, List.append_assoc]
  refine hgroup _ _ (hpart _ (List.take_subset ..)) ?_
  refine hgroup _ _ (hpart _ fun c hc => List.mem_of_mem_drop (List.mem_of_mem_take hc)) ?_
  refine hgroup _ _ (hpart _ fun c hc => List.mem_of_mem_drop (List.mem_of_mem_take hc)) ?_
  exact hgroup _ _ (hpart _ fun c hc => List.mem_of_mem_drop (List.mem_of_mem_take hc))
    (hpart _ fun c hc => List.mem_of_mem_drop hc)

theorem quote_legible {s : String} (h : Legible s.toList) : Json.quote true s = '"' :: (s.toList ++ ['"']) := by
  have hsame : s.toList.flatMap (Json.escape true) = s.toList := by
    rw [List.flatMap_congr fun c hc => (h c hc).1, List.flatMap_singleton']
  rw [Json.quote, hsame]
  rfl

/-- The bytes of ASCII text, read back. -/
theorem map_ofNat_utf8 {text : List Char} (h : ∀ c ∈ text, c.toNat < 128) : (utf8 text).map Char.ofNat = text := by
  have hchar : ∀ c ∈ text, ((String.utf8EncodeChar c).map UInt8.toNat).map Char.ofNat = [c] := by
    intro c hc
    have hlt := h c hc
    have hval : c.val.toNat ≤ 127 := Nat.le_of_lt_succ hlt
    have hbyte : c.val.toNat % 256 = c.val.toNat := Nat.mod_eq_of_lt (by omega)
    rw [String.utf8EncodeChar, if_pos hval]
    simp only [List.map_cons, List.map_nil, UInt8.toNat_ofNat', hbyte]
    exact congrArg (fun c => [c]) (Char.ofNat_toNat c)
  rw [utf8, List.map_flatMap, List.flatMap_congr hchar, List.flatMap_singleton']

theorem unquoted_append {text rest : List Char} (h : Legible text) :
    unquoted (text ++ '"' :: rest) = (String.ofList text, rest) := by
  have hspan : (text ++ '"' :: rest).span (· ≠ '"') = (text, '"' :: rest) := by
    rw [List.span_eq_takeWhile_dropWhile, List.takeWhile_append_of_pos, List.dropWhile_append_of_pos]
    · simp
    · exact fun c hc => decide_eq_true (h c hc).2.1
    · exact fun c hc => decide_eq_true (h c hc).2.1
  simp only [unquoted, hspan, List.drop_one, List.tail_cons]

/-- Pieces of text, each closed by a quotation mark. -/
def closed (pieces : List String) (rest : List Char) : List Char :=
  pieces.foldr (fun piece rest => piece.toList ++ '"' :: rest) rest

/-- What an envelope holds between its quotation marks. -/
def pieces (event : OutboxEvent) : List String :=
  ["\x7b", "schema_version", ":1,", "event_id", ":", event.id.str, ",", "run_id", ":", event.runId.str, ",",
    "event_type", ":", event.eventType, ",", "created_at", ":", "1970-01-01T00:00:00+00:00"]

/-- The pieces that are the same in every envelope. -/
def fixedPieces : List String := ["\x7b", "schema_version", ":1,", "event_id", ":", ",", "run_id", "event_type",
  "created_at", "1970-01-01T00:00:00+00:00"]

theorem legible_pieces {event : OutboxEvent} (h : event.eventType ∈ publishedTypes) :
    ∀ piece ∈ pieces event, Legible piece.toList := by
  have htype : ∀ text ∈ publishedTypes, Legible text.toList := by decide +kernel
  have hfixed : ∀ piece ∈ fixedPieces, Legible piece.toList := by decide +kernel
  intro piece hmem
  have hcases : piece ∈ fixedPieces ∨ piece = event.id.str ∨ piece = event.runId.str ∨ piece = event.eventType := by
    simp only [pieces, List.mem_cons, List.not_mem_nil, or_false] at hmem
    rcases hmem with rfl | rfl | rfl | rfl | rfl | rfl | rfl | rfl | rfl | rfl | rfl | rfl | rfl | rfl | rfl | rfl |
      rfl | rfl <;> simp [fixedPieces]
  rcases hcases with hmem | rfl | rfl | rfl
  · exact hfixed piece hmem
  · exact legible_str event.id
  · exact legible_str event.runId
  · exact htype _ h

theorem member_legible {name text : String} (hname : Legible name.toList) (htext : Legible text.toList) :
    Json.member true (name, Json.quote true text) =
      '"' :: (name.toList ++ '"' :: ':' :: '"' :: (text.toList ++ ['"'])) := by
  rw [Json.member, quote_legible hname, quote_legible htext]
  simp only [List.cons_append, List.append_assoc, List.nil_append]

theorem dumps_envelope {event : OutboxEvent} (h : event.eventType ∈ publishedTypes) (offset : ℤ) :
    (envelope isoformat event offset).dumps false true = closed (pieces event) ['}'] := by
  have hlegible (text : String) (hmem : text ∈ pieces event) := legible_pieces h text hmem
  have hversion : Json.member true ("schema_version", (toString (1 : ℤ)).toList) =
      '"' :: ("schema_version".toList ++ "\":1".toList) := by decide +kernel
  have hevent := member_legible (hlegible "event_id" (by simp [pieces]))
    (hlegible event.id.str (by simp [pieces]))
  have hrun := member_legible (hlegible "run_id" (by simp [pieces]))
    (hlegible event.runId.str (by simp [pieces]))
  have htype := member_legible (hlegible "event_type" (by simp [pieces]))
    (hlegible event.eventType (by simp [pieces]))
  have htime := member_legible (hlegible "created_at" (by simp [pieces]))
    (hlegible "1970-01-01T00:00:00+00:00" (by simp [pieces]))
  simp only [envelope, Json.dumps, Json.dumpsFields, Bool.false_eq_true, if_false, List.map_cons, List.map_nil, isoformat,
    hversion, hevent, hrun, htype, htime]
  simp [List.intercalate, closed, pieces]

theorem iterate_closed {ps : List String} (h : ∀ piece ∈ ps, Legible piece.toList) (rest : List Char) {n : ℕ}
    {piece : String} (hn : ps[n]? = some piece) :
    (unquoted (Nat.iterate (fun rest => (unquoted rest).2) n (closed ps rest))).1 = piece := by
  induction ps generalizing n with
  | nil => contradiction
  | cons p ps ih =>
    obtain ⟨hp, hps⟩ := List.forall_mem_cons.mp h
    have hunquoted : unquoted (closed (p :: ps) rest) = (p, closed ps rest) := by
      rw [closed, List.foldr_cons, unquoted_append hp, String.ofList_toList]
      rfl
    cases n with
    | zero =>
      obtain rfl := Option.some.inj hn
      exact congrArg Prod.fst hunquoted
    | succ n =>
      rw [Function.iterate_succ_apply, hunquoted]
      exact ih hps hn

theorem ascii_closed {ps : List String} (h : ∀ piece ∈ ps, Legible piece.toList) {rest : List Char}
    (hrest : ∀ c ∈ rest, c.toNat < 128) : ∀ c ∈ closed ps rest, c.toNat < 128 := by
  induction ps with
  | nil => exact hrest
  | cons p ps ih =>
    obtain ⟨hp, hps⟩ := List.forall_mem_cons.mp h
    rw [closed, List.foldr_cons]
    exact List.forall_mem_append.mpr ⟨fun c hc => (hp c hc).2.2, List.forall_mem_cons.mpr ⟨by decide, ih hps⟩⟩

theorem jsonLoads_envelope {event : OutboxEvent} (h : event.eventType ∈ publishedTypes) (offset : ℤ) :
    jsonLoads (utf8 ((envelope isoformat event offset).dumps false true)) =
      some (envelope isoformat event offset) := by
  have hlegible := legible_pieces h
  have hbytes : (utf8 (closed (pieces event) ['}'])).map Char.ofNat = closed (pieces event) ['}'] :=
    map_ofNat_utf8 (ascii_closed hlegible (List.forall_mem_singleton.mpr (by decide)))
  have hfield {n : ℕ} {piece : String} (hn : (pieces event)[n]? = some piece) :=
    iterate_closed hlegible ['}'] hn
  rw [dumps_envelope h, jsonLoads, hbytes]
  simp only [hfield (n := 5) rfl, hfield (n := 9) rfl, hfield (n := 13) rfl, hfield (n := 17) rfl]
  rfl

theorem codecs : external.Codecs where
  loads := by
    intro event offset h
    exact jsonLoads_envelope h offset
  uuid := by
    intro id
    have hparse : external.decoders.uuid = UUID.parse := rfl
    rw [hparse]
    exact UUID.parse_str id
  aware := fun _ _ => ⟨⟨0, some 0⟩, rfl, rfl⟩

end Demo
end Mic3
