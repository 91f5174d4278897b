import Perimeterd.Lib.Result
import Perimeterd.Netip.Text
import Perimeterd.State.Stored

/-!
# Records on disk

`encodeRecord` and `decodeRecord` of `internal/state/records.go`, and the three functions of
`store.go` that compare a revision with its file: `readRevision`, `writeImmutableRevision` and
`ensureRevisionMatches`. A record is an envelope around the payload's own JSON text, with the text's
checksum.

A revision's identity is checked to be hexadecimal and its configuration, manifest and target are
checked as `validateRevision` does; its configuration path is whatever the command line gave, and no
check reads it. `ensureRevisionMatches` encodes a revision it was handed and expects the stored
bytes. After a restart that revision is one `readRevision` returned, which need not be the one that
was stored: a byte that belongs to no character has become U+FFFD. **It encodes to the stored bytes
all the same** (`stored_revision_reencodes`), because the encoder had written U+FFFD for the byte in
the first place. An encoder that writes an escape there, as `encoding/json` did before it was built
on its second version, would break this.

The journal and the active record are those of `State.Store`; what `Prepare` and `Commit` do with
them does not depend on the bytes of a revision.
-/

namespace Perimeterd.State.Wire

open Lib List

/-! ## Envelopes -/

def recordVersion : Int64 := 2

def maxRecordBytes : Nat := 32 * 2 ^ 20

/-- `sha256.Sum256`'s result. -/
abbrev Digest := { d : Bytes // d.length = 32 }

def hexEncode (d : Bytes) : Bytes :=
  d.flatMap fun b : UInt8 => [Json.hexDigit (b >>> 4), Json.hexDigit (b &&& 0xF)]

def hexDecode : Bytes → Option Bytes
  | [] => some []
  | [_] => none
  | a :: b :: rest => do
      let a ← Json.hexValue a
      let b ← Json.hexValue b
      let rest ← hexDecode rest
      some (UInt8.ofNat (a * 16 + b) :: rest)

/-- The envelope as a tree, for a payload that is one. -/
def envelopeTree (checksum : Bytes) (payload : Json) : Json :=
  .obj [(ascii "version", .num (Json.decimal recordVersion.toInt)),
    (ascii "checksum", .str checksum), (ascii "payload", payload)]

/-- The envelope's text. A `json.RawMessage` is copied: it has no space to compact and nothing left
to escape, being `json.Marshal`'s own output. -/
def envelope (checksum payload : Bytes) : Bytes :=
  0x7B :: (Json.quote (ascii "version") ++ 0x3A ::
    ((Json.decimal recordVersion.toInt).text ++ 0x2C ::
      (Json.quote (ascii "checksum") ++ 0x3A ::
        (Json.quote checksum ++ 0x2C ::
          (Json.quote (ascii "payload") ++ 0x3A :: (payload ++ [0x7D]))))))

theorem envelope_print (ck : Bytes) (j : Json) :
    envelope ck j.print = (envelopeTree ck j).print := by
  simp [envelope, envelopeTree, Json.print, Json.printMembers]

structure Envelope where
  version : Int64 := 0
  checksum : Bytes := []
  payload : Bytes := []

/-- One member of the envelope; a name it does not know is an error. -/
def Envelope.set (e : Envelope) (m : Bytes × Bytes) : Option Envelope :=
  if m.1 = ascii "version" then
    ((Json.parse m.2).bind int64.decode).map fun version => { e with version }
  else if m.1 = ascii "checksum" then
    ((Json.parse m.2).bind Codec.string.decode).map fun checksum => { e with checksum }
  else if m.1 = ascii "payload" then some { e with payload := m.2 }
  else none

def readEnvelope (data : Bytes) : Option Envelope := do
  let members ← Json.rawMembers data
  members.foldlM Envelope.set {}

section Records

variable (sha256 : Bytes → Digest) {α : Type} (c : Codec α)

def encodeRecord (a : α) : Except String Bytes :=
  match c.encode a with
  | none => .error "encode payload"
  | some j =>
      let data := envelope (hexEncode (sha256 j.print).1) j.print
      if maxRecordBytes < data.length then .error "state: encoded record is oversized" else .ok data

/-- `checkJSON`: one value, no key twice in an object. -/
def checkJSON (data : Bytes) : Except String Unit :=
  match Json.parse data with
  | none => .error "state: malformed JSON"
  | some j => if j.distinct then .ok () else .error "state: malformed JSON: duplicate object key"

def decodeRecord (data : Bytes) : Except String α :=
  if data.length = 0 ∨ maxRecordBytes < data.length then .error "state: record size is invalid"
  else do
    checkJSON data
    match readEnvelope data with
    | none => .error "state: malformed record"
    | some record =>
        if record.version ≠ recordVersion then .error "state: record version is unsupported"
        else if record.payload.length = 0 ∨ maxRecordBytes < record.payload.length then
          .error "state: record payload size is invalid"
        else if hexDecode record.checksum ≠ some (sha256 record.payload).1 then
          .error "state: record checksum mismatch"
        else
          match (Json.parse record.payload).bind c.decode with
          | none => .error "state: malformed payload"
          | some a => .ok a

end Records

/-! ## What a record's text holds -/

theorem hexDigits_byte (b : UInt8) :
    Json.hexDigit (b >>> 4) < 0x80 ∧ Json.hexDigit (b &&& 0xF) < 0x80 ∧
      Json.hexValue (Json.hexDigit (b >>> 4)) = some (b.toNat / 16) ∧
      Json.hexValue (Json.hexDigit (b &&& 0xF)) = some (b.toNat % 16) := by
  have hal : ∀ n < 256, Json.hexDigit (UInt8.ofNat n >>> 4) < 0x80 ∧
      Json.hexDigit (UInt8.ofNat n &&& 0xF) < 0x80 ∧
      Json.hexValue (Json.hexDigit (UInt8.ofNat n >>> 4)) = some ((UInt8.ofNat n).toNat / 16) ∧
      Json.hexValue (Json.hexDigit (UInt8.ofNat n &&& 0xF)) = some ((UInt8.ofNat n).toNat % 16) := by
    decide +kernel
  simpa using hal b.toNat b.toNat_lt

theorem hexDecode_hexEncode (d : Bytes) : hexDecode (hexEncode d) = some d := by
  induction d with
  | nil => rfl
  | cons b d ih =>
    obtain ⟨-, -, hh, hl⟩ := hexDigits_byte b
    have hc : hexEncode (b :: d) =
        Json.hexDigit (b >>> 4) :: Json.hexDigit (b &&& 0xF) :: hexEncode d := rfl
    rw [hc, hexDecode, hh, hl, ih]
    simp only [Option.bind_eq_bind, Option.bind_some, Nat.div_add_mod', UInt8.ofNat_toNat]

theorem valid_hexEncode (d : Bytes) : Utf8.valid (hexEncode d) = true := by
  apply Utf8.valid_of_ascii
  intro a ha
  obtain ⟨b, -, hb⟩ := mem_flatMap.mp ha
  obtain ⟨hh, hl, -⟩ := hexDigits_byte b
  simp only [mem_cons, not_mem_nil, or_false] at hb
  rcases hb with rfl | rfl
  · exact hh
  · exact hl

theorem coerce_names : Utf8.coerce (ascii "version") = ascii "version" ∧
    Utf8.coerce (ascii "checksum") = ascii "checksum" ∧
    Utf8.coerce (ascii "payload") = ascii "payload" := by decide +kernel

theorem coerced_envelopeTree {ck : Bytes} (h : Utf8.valid ck = true) (j : Json) :
    (envelopeTree ck j).coerced = envelopeTree ck j.coerced := by
  simp only [envelopeTree, Json.coerced, Json.coercedMembers, coerce_names,
    Utf8.coerce_eq_self.mpr h]

theorem distinct_envelopeTree (ck : Bytes) (j : Json) :
    (envelopeTree ck j).distinct = j.distinct := by
  have hna : ([ascii "version", ascii "checksum", ascii "payload"]).Nodup := by decide +kernel
  simp [envelopeTree, Json.distinct, Json.distinctMembers, hna]

theorem readEnvelope_envelope {ck : Bytes} (h : Utf8.valid ck = true) (j : Json) :
    readEnvelope (envelope ck j.print) = some ⟨recordVersion, ck, j.print⟩ := by
  have hnu : int64.decode (.num (Json.decimal recordVersion.toInt)) = some recordVersion := by
    decide +kernel
  have hne : ascii "checksum" ≠ ascii "version" ∧ ascii "payload" ≠ ascii "version" ∧
      ascii "payload" ≠ ascii "checksum" := by decide +kernel
  rw [envelope_print, readEnvelope, envelopeTree, Json.rawMembers_print]
  simp only [map_cons, map_nil, coerce_names, Option.bind_eq_bind,
    Option.bind_some, foldlM_cons, foldlM_nil, Envelope.set, if_true, if_neg hne.1,
    if_neg hne.2.1, if_neg hne.2.2, Json.parse_print, Json.coerced, hnu, Option.map_some,
    Utf8.coerce_eq_self.mpr h]
  rfl

section Records

variable {sha256 : Bytes → Digest} {α : Type} {c : Codec α} {a b : α} {data : Bytes}

theorem encodeRecord_eq_ok :
    encodeRecord sha256 c a = .ok data ↔
      ∃ j, c.encode a = some j ∧ data = envelope (hexEncode (sha256 j.print).1) j.print ∧
        data.length ≤ maxRecordBytes := by
  unfold encodeRecord
  cases c.encode a with
  | none => simp
  | some j =>
    simp only [ite_throw_eq_ok, Except.ok.injEq, Option.some.injEq, exists_eq_left', not_lt]
    exact ⟨fun ⟨hle, heq⟩ => ⟨heq.symm, heq ▸ hle⟩, fun ⟨heq, hle⟩ => ⟨heq ▸ hle, heq.symm⟩⟩

theorem length_envelope (ck payload : Bytes) : payload.length < (envelope ck payload).length := by
  simp only [envelope, length_cons, length_append]
  omega

/-- **What is read from an encoded record is the value's `norm`.** -/
theorem decodeRecord_encodeRecord (hda : encodeRecord sha256 c a = .ok data) :
    decodeRecord sha256 c data = .ok (c.norm a) := by
  obtain ⟨j, hj, rfl, hle⟩ := encodeRecord_eq_ok.mp hda
  have hva := valid_hexEncode (sha256 j.print).1
  have hl := length_envelope (hexEncode (sha256 j.print).1) j.print
  have hsi : ¬ (j.print.length = 0 ∨ maxRecordBytes < j.print.length) := by
    obtain ⟨first, rest, hfirst, -⟩ := Json.print_first j
    have hp : 0 < j.print.length := by rw [hfirst]; exact Nat.succ_pos _
    omega
  unfold decodeRecord checkJSON
  rw [if_neg (by omega), readEnvelope_envelope hva, envelope_print, Json.parse_print,
    coerced_envelopeTree hva]
  simp only [distinct_envelopeTree, Json.parse_print, hexDecode_hexEncode, ne_eq, not_true,
    if_false, Option.bind_some, if_neg hsi, c.distinct hj, if_true, c.decode_encode hj, bind,
    Except.bind]

/-- **What is read encodes to the record it was read from.** -/
theorem encodeRecord_norm (hda : encodeRecord sha256 c a = .ok data) :
    encodeRecord sha256 c (c.norm a) = .ok data := by
  obtain ⟨j, hj, hdata, hle⟩ := encodeRecord_eq_ok.mp hda
  refine encodeRecord_eq_ok.mpr ⟨j.coerced, c.encode_norm hj, ?_, hle⟩
  rw [Json.print_coerced, hdata]

end Records

/-! ## Revision files -/

def validateID (value : Bytes) (label : String) : Except String Unit :=
  if value.length ≠ 32 then
    .error ("state: " ++ label ++ " identity must be 32 lowercase hex characters")
  else if ¬ value.all (fun a => (0x30 ≤ a && a ≤ 0x39) || (0x61 ≤ a && a ≤ 0x66)) then
    .error ("state: " ++ label ++ " identity is not lowercase hexadecimal")
  else .ok ()

/-- `validateCacheManifestID`; an empty text is no manifest. -/
def manifestOf (value : Bytes) : Except String (Option Manifest) :=
  if value = [] then .ok none
  else
    match identity? 64 value with
    | none => .error "manifest identity must be 64 lowercase hex characters"
    | some id => .ok (some id)

/-- What the store computes with: the libraries' text forms, the hash, and what the checks of a
revision's content compute with. -/
structure Host (φ : Type) where
  forms : Forms φ
  sha256 : Bytes → Digest
  checks : Checks

/-- The revision files, by identity. -/
abbrev Files := Bytes → Option Bytes

def noFiles : Files := fun _ => none

section Store

variable {φ : Type} (h : Host φ)

def validateRevision (r : Revision φ) : Except String Unit :=
  if r.version ≠ recordVersion then .error "state: revision version is unsupported"
  else do
    validateID r.id "revision"
    (do
      let manifest ← manifestOf r.manifest
      let target ← match r.target with
        | none => .ok none
        | some t =>
            match t.view? with
            | none => .error "target: malformed"
            | some t => .ok (some t)
      h.checks.content r.config.version.toInt (r.config.view h.forms) manifest target).mapError
        (("state: revision " ++ text r.id ++ " ") ++ ·)

abbrev encodeRevision (r : Revision φ) : Except String Bytes :=
  encodeRecord h.sha256 (revision h.forms) r

def readRevision (files : Files) (id : Bytes) : Except String (Revision φ) := do
  validateID id "revision"
  match files id with
  | none => .error "file does not exist"
  | some data => do
      let r ← decodeRecord h.sha256 (revision h.forms) data
      if r.id ≠ id then .error "state: revision filename and identity differ"
      else do
        validateRevision h r
        .ok r

def ensureRevisionMatches (files : Files) (r : Revision φ) : Except String Unit :=
  match files r.id with
  | none => .error "file does not exist"
  | some stored => do
      let expected ← encodeRevision h r
      if stored ≠ expected then .error "state: immutable revision differs"
      else do
        let _ ← readRevision h files r.id
        .ok ()

def writeImmutableRevision (files : Files) (r : Revision φ) : Except String Files := do
  let data ← encodeRevision h r
  match files r.id with
  | some existing => do
      let _ ← readRevision h files r.id
      if existing ≠ data then .error "state: immutable revision already differs" else .ok files
  | none => .ok (Function.update files r.id (some data))

/-- The previous revision must be the one on disk. -/
def ensurePrevious (files : Files) : Option (Revision φ) → Except String Unit
  | none => .ok ()
  | some p => do
      (validateRevision h p).mapError ("previous: " ++ ·)
      ensureRevisionMatches h files p

/-- What `Prepare` does with the revision files. -/
def prepare (files : Files) (previous : Option (Revision φ)) (candidate : Revision φ) :
    Except String Files := do
  (validateRevision h candidate).mapError ("candidate: " ++ ·)
  ensurePrevious h files previous
  (writeImmutableRevision h files candidate).mapError ("candidate revision: " ++ ·)

def commit (files : Files) (candidate : Revision φ) : Except String Unit := do
  (validateRevision h candidate).mapError ("candidate: " ++ ·)
  ensureRevisionMatches h files candidate

/-! ## Comparing a revision with its file -/

variable {h} {files files' : Files} {r r' : Revision φ} {data : Bytes}

theorem writeImmutableRevision_eq_ok (hw : writeImmutableRevision h files r = .ok files') :
    ∃ data, encodeRevision h r = .ok data ∧ files' r.id = some data := by
  obtain ⟨data, hd, hrest⟩ := bind_eq_ok.mp hw
  refine ⟨data, hd, ?_⟩
  split at hrest
  case h_1 existing hexi =>
    obtain ⟨_, -, hc⟩ := bind_eq_ok.mp hrest
    obtain ⟨hsa, hf⟩ := ite_throw_eq_ok.mp hc
    rw [← Except.ok.inj hf, hexi, not_not.mp hsa]
  case h_2 =>
    cases hrest
    exact Function.update_self _ _ _

theorem readRevision_eq_ok {id : Bytes} (hread : readRevision h files id = .ok r) :
    ∃ data, files id = some data ∧ decodeRecord h.sha256 (revision h.forms) data = .ok r ∧
      r.id = id ∧ validateRevision h r = .ok () := by
  obtain ⟨_, -, hrest⟩ := bind_eq_ok.mp hread
  split at hrest
  case h_1 => cases hrest
  case h_2 data hda =>
    obtain ⟨r₀, hd, hrest⟩ := bind_eq_ok.mp hrest
    obtain ⟨hid, hrest⟩ := ite_throw_eq_ok.mp hrest
    obtain ⟨_, hva, hok⟩ := bind_eq_ok.mp hrest
    cases hok
    exact ⟨data, hda, hd, not_not.mp hid, hva⟩

theorem ensureRevisionMatches_eq_ok (hf : files r.id = some data)
    (hread : readRevision h files r.id = .ok r') (hen : encodeRevision h r = .ok data) :
    ensureRevisionMatches h files r = .ok () := by
  unfold ensureRevisionMatches
  simp only [hf, hread, hen, bind_eq_ok, ite_throw_eq_ok, not_not]
  exact ⟨data, rfl, rfl, r', rfl, trivial⟩

theorem prepare_eq_ok {prev : Option (Revision φ)} (hp : prepare h files prev r = .ok files') :
    writeImmutableRevision h files r = .ok files' := by
  obtain ⟨_, -, hrest⟩ := bind_eq_ok.mp hp
  obtain ⟨_, -, hw⟩ := bind_eq_ok.mp hrest
  exact mapError_eq_ok.mp hw

theorem prepare_self_eq_ok (hva : validateRevision h r = .ok ()) (hf : files r.id = some data)
    (hread : readRevision h files r.id = .ok r') (hen : encodeRevision h r = .ok data) :
    prepare h files (some r) r = .ok files := by
  simp only [prepare, ensurePrevious, writeImmutableRevision, bind_eq_ok, mapError_eq_ok, hva,
    ensureRevisionMatches_eq_ok hf hread hen]
  refine ⟨(), trivial, (), ⟨(), trivial, trivial⟩, data, hen, ?_⟩
  simp only [hf, hread, bind_eq_ok, ite_throw_eq_ok]
  exact ⟨r', rfl, fun hne => hne rfl, trivial⟩

variable (h)

/-- **A stored revision re-encodes to itself.** After `Prepare` and `Commit` of any revision, its
configuration path any bytes at all, the revision can be read; what is read encodes to the stored
bytes, and passes the comparisons `Prepare` and `Commit` make when it is prepared again after
itself. -/
theorem stored_revision_reencodes (files files' : Files) (previous : Option (Revision φ))
    (r : Revision φ) (hprepare : prepare h files previous r = .ok files')
    (hcommit : commit h files' r = .ok ()) :
    ∃ r' stored, readRevision h files' r.id = .ok r' ∧ files' r.id = some stored ∧
      encodeRevision h r' = .ok stored ∧ prepare h files' (some r') r' = .ok files' ∧
      commit h files' r' = .ok () := by
  obtain ⟨stored, hen, hf⟩ := writeImmutableRevision_eq_ok (prepare_eq_ok hprepare)
  -- `Commit` has read the file itself.
  obtain ⟨r', hread⟩ : ∃ r', readRevision h files' r.id = .ok r' := by
    obtain ⟨_, -, hma⟩ := bind_eq_ok.mp hcommit
    simp only [ensureRevisionMatches, hf] at hma
    obtain ⟨_, -, hrest⟩ := bind_eq_ok.mp hma
    obtain ⟨-, hrest⟩ := ite_throw_eq_ok.mp hrest
    obtain ⟨r', hread, -⟩ := bind_eq_ok.mp hrest
    exact ⟨r', hread⟩
  obtain ⟨data, hda, hd, hid, hva⟩ := readRevision_eq_ok hread
  obtain rfl : data = stored := Option.some.inj (hda.symm.trans hf)
  have hnorm : (revision h.forms).norm r = r' :=
    Except.ok.inj ((decodeRecord_encodeRecord hen).symm.trans hd)
  have hen' : encodeRevision h r' = .ok data := hnorm ▸ encodeRecord_norm hen
  have hf' : files' r'.id = some data := hid ▸ hf
  have hr' : readRevision h files' r'.id = .ok r' := hid.symm ▸ hread
  refine ⟨r', data, hread, hf, hen', prepare_self_eq_ok hva hf' hr' hen', ?_⟩
  simp only [commit, hva, bind_eq_ok, mapError_eq_ok, ensureRevisionMatches_eq_ok hf' hr' hen']
  exact ⟨(), trivial, trivial⟩

end Store

/-! ## A path with a stray byte -/

def sampleForms : Forms Unit where
  prefixText := Netip.prefixText
  parsePrefix := Netip.parsePrefix
  parse_prefixText := Netip.parsePrefix_prefixText
  prefixText_ne_nil := Netip.prefixText_ne_nil
  prefixText_valid _ := Utf8.valid_of_ascii fun _ ha => Netip.prefixText_ascii ha
  zero := ()
  isZero _ := true
  isZero_zero := rfl
  floatText _ := some (Json.decimal 0)
  parseFloat _ := some ()
  parse_floatText _ := rfl

def sampleHost : Host Unit where
  forms := sampleForms
  sha256 _ := ⟨List.replicate 32 0, by decide⟩
  checks :=
    { owner := 1, load := fun _ => .error "manifest does not exist", texts := Source.plainTexts
      digest := id, prefixText := fun p => text (Netip.prefixText p) }

/-- The revision an empty policy makes of a configuration at `path`. -/
def revisionAt (path : Bytes) : Revision Unit where
  version := 2
  id := ascii "0123456789abcdef0123456789abcdef"
  epoch := 1
  configPath := path
  config :=
    { version := 1
      firewall :=
        { backend := ascii "nftables", denyAction := ascii "drop", ipv4 := true, ipv6 := true
          nftables := { table := ascii "perimeterd", priority := -10 } } }

theorem stray_byte_reencodes :
    ∃ files r', prepare sampleHost noFiles none (revisionAt (ascii "/etc/" ++ [0xFF])) = .ok files ∧
      readRevision sampleHost files (revisionAt []).id = .ok r' ∧
      r'.configPath = ascii "/etc/" ++ [0xEF, 0xBF, 0xBD] ∧
      prepare sampleHost files (some r') r' = .ok files ∧ commit sampleHost files r' = .ok () := by
  let r := revisionAt (ascii "/etc/" ++ [0xFF])
  obtain ⟨files, hp, hc⟩ := exists_ok (e := prepare sampleHost noFiles none r)
    (p := fun files => decide (commit sampleHost files r = .ok () ∧
      (readRevision sampleHost files r.id).map (·.configPath) =
        .ok (ascii "/etc/" ++ [0xEF, 0xBF, 0xBD]))) (by decide +kernel)
  obtain ⟨hcommit, hpath⟩ := of_decide_eq_true hc
  obtain ⟨r', _, hread, -, -, hag, hc'⟩ :=
    stored_revision_reencodes sampleHost noFiles files none r hp hcommit
  rw [hread] at hpath
  exact ⟨files, r', hp, hread, Except.ok.inj hpath, hag, hc'⟩

end Perimeterd.State.Wire
