import Perimeterd.Lib.Decimal
import Perimeterd.Lib.Pointwise

/-!
# Values as JSON trees

`Codec α` is what Go's `encoding/json` does with a type: how a value becomes a tree, how a tree
becomes a value, and `norm`, what a value has become once it went through both. A codec carries its
own laws, so that a record assembled from fields needs no proof of its own:

* what a value's tree has become after printing and parsing, its valid form, is read as the value's
  `norm`;
* the tree of the `norm` is that valid form;
* the valid form repeats no key.

`norm` is not the identity: a string loses its stray bytes, and a field that is left out when it is
zero-like comes back as the zero value. The laws say that this happens once. What was written and
read is written as the same text again, whatever bytes the strings were made of.

Reading starts from a type's zero value, which `null` and missing fields leave in place. A `nil`
slice, map or pointer is written `null` and told apart from an empty one. Stored texts are written
by the encoder, so a field is found by its exact name.
-/

namespace Lib

open List

namespace Json

variable {ms : List (Bytes × Json)}

theorem coercedItems_eq_map (js : List Json) : coercedItems js = js.map coerced := by
  induction js with
  | nil => rfl
  | cons j js ih => rw [coercedItems, ih, map_cons]

theorem coercedMembers_eq_map (ms : List (Bytes × Json)) :
    coercedMembers ms = ms.map fun m => (Utf8.coerce m.1, m.2.coerced) := by
  induction ms with
  | nil => rfl
  | cons m ms ih => rw [coercedMembers, ih, map_cons]

theorem distinctItems_iff {js : List Json} :
    distinctItems js = true ↔ ∀ j ∈ js, j.distinct = true := by
  induction js with
  | nil => simp [distinctItems]
  | cons j js ih => simp [distinctItems, ih]

theorem distinctMembers_iff : distinctMembers ms = true ↔ ∀ m ∈ ms, m.2.distinct = true := by
  induction ms with
  | nil => simp [distinctMembers]
  | cons m ms ih => simp [distinctMembers, ih]

theorem distinct_obj :
    distinct (obj ms) = true ↔ (ms.map (·.1)).Nodup ∧ ∀ m ∈ ms, m.2.distinct = true := by
  simp [distinct, distinctMembers_iff]

end Json

/-! ## Codecs -/

structure Codec (α : Type) where
  /-- The zero value. -/
  zero : α
  encode : α → Option Json
  decode : Json → Option α
  /-- What a value has become once it was written and read. -/
  norm : α → α
  decode_encode : ∀ {a j}, encode a = some j → decode j.coerced = some (norm a)
  encode_norm : ∀ {a j}, encode a = some j → encode (norm a) = some j.coerced
  distinct : ∀ {a j}, encode a = some j → j.coerced.distinct = true

namespace Codec

variable {α β : Type}

/-- A type whose values are single scalars; `null` leaves the zero value. -/
def scalar (zero : α) (write : α → Option Json) (read : Json → Option α) (norm : α → α)
    (laws : ∀ {a j}, write a = some j → j.coerced ≠ .null ∧ j.coerced.distinct = true ∧
      read j.coerced = some (norm a) ∧ write (norm a) = some j.coerced) : Codec α where
  zero := zero
  encode := write
  decode
    | .null => some zero
    | j => read j
  norm := norm
  decode_encode := by
    intro a j ha
    obtain ⟨hnull, -, hread, -⟩ := laws ha
    cases hj : j.coerced with
    | null => exact absurd hj hnull
    | _ =>
      rw [hj] at hread
      exact hread
  encode_norm ha := (laws ha).2.2.2
  distinct ha := (laws ha).2.1

/-- A scalar that is written without a string, or always with a valid one. -/
def plain (zero : α) (write : α → Option Json) (read : Json → Option α)
    (laws : ∀ {a j}, write a = some j → j.coerced = j ∧ j ≠ .null ∧ j.distinct = true ∧
      read j = some a) : Codec α :=
  scalar zero write read id fun {a j} ha => by
    obtain ⟨hco, hnull, hdi, hread⟩ := laws ha
    rw [hco]
    exact ⟨hnull, hdi, hread, ha⟩

def bool : Codec Bool :=
  plain false (fun b => some (.bool b))
    (fun
      | .bool b => some b
      | _ => none)
    (by rintro a j ⟨⟩; exact ⟨rfl, nofun, rfl, rfl⟩)

/-- Go's strings are arbitrary bytes, and the only scalars that are not read back as they were. -/
def string : Codec Bytes :=
  scalar [] (fun s => some (.str s))
    (fun
      | .str s => some s
      | _ => none)
    Utf8.coerce (by rintro a j ⟨⟩; exact ⟨nofun, rfl, rfl, rfl⟩)

/-- A type with a text form of its own. -/
def text (zero : α) (format : α → Bytes) (parse : Bytes → Option α)
    (parse_format : ∀ a, parse (format a) = some a) (valid : ∀ a, Utf8.valid (format a) = true) :
    Codec α :=
  plain zero (fun a => some (.str (format a)))
    (fun
      | .str s => parse s
      | _ => none)
    (by
      rintro a j ⟨⟩
      exact ⟨by rw [Json.coerced, Utf8.coerce_eq_self.mpr (valid a)], nofun, rfl, parse_format a⟩)

/-- A machine integer: the text is read only within the type's range. -/
def integer (zero : α) (toInt : α → Int) (ofInt : Int → α) (lo hi : Int)
    (ofInt_toInt : ∀ a, ofInt (toInt a) = a) (range : ∀ a, lo ≤ toInt a ∧ toInt a ≤ hi) : Codec α :=
  plain zero (fun a => some (.num (Json.decimal (toInt a))))
    (fun
      | .num n =>
          match Json.parseInt n.text with
          | some z => if lo ≤ z ∧ z ≤ hi then some (ofInt z) else none
          | none => none
      | _ => none)
    (by
      rintro a j ⟨⟩
      refine ⟨rfl, nofun, rfl, ?_⟩
      simp only [Json.decimal, Json.parseInt_decimalText]
      rw [if_pos (range a), ofInt_toInt])

/-- A type written as a number by `format`, which may refuse a value. -/
def number (zero : α) (format : α → Option Json.Number) (parse : Json.Number → Option α)
    (parse_format : ∀ {a n}, format a = some n → parse n = some a) : Codec α :=
  plain zero (fun a => (format a).map .num)
    (fun
      | .num n => parse n
      | _ => none)
    (by
      intro a j h
      obtain ⟨n, hn, rfl⟩ := Option.map_eq_some_iff.mp h
      exact ⟨rfl, nofun, rfl, parse_format hn⟩)

/-! ## Slices -/

/-- `f` of every element, unless one of them has none. -/
def each {γ δ : Type} (f : γ → Option δ) : List γ → Option (List δ)
  | [] => some []
  | a :: as =>
      match f a, each f as with
      | some b, some bs => some (b :: bs)
      | _, _ => none

variable {es : List (Bytes × α)} {ms : List (Bytes × Json)}

theorem each_eq_some {γ δ : Type} {f : γ → Option δ} {as : List γ} {bs : List δ} :
    each f as = some bs ↔ List.Forall₂ (fun a b => f a = some b) as bs := by
  induction as generalizing bs with
  | nil => simp [each, eq_comm]
  | cons a as ih =>
    rw [forall₂_cons_left_iff]
    simp only [each]
    constructor
    · intro h
      split at h
      case h_1 b bs' hb hbs =>
        cases h
        exact ⟨b, bs', hb, ih.mp hbs, rfl⟩
      case h_2 => cases h
    · rintro ⟨b, bs', hb, hbs, rfl⟩
      rw [hb, ih.mpr hbs]

theorem each_map {γ δ γ' δ' : Type} {f : γ → Option δ} {g : γ' → Option δ'} {u : γ → γ'} {v : δ → δ'}
    (hfg : ∀ {a b}, f a = some b → g (u a) = some (v b)) {as : List γ} {bs : List δ}
    (h : each f as = some bs) : each g (as.map u) = some (bs.map v) := by
  rw [each_eq_some] at h ⊢
  exact forall₂_map_left_iff.mpr (forall₂_map_right_iff.mpr (h.imp fun _ _ => hfg))

theorem each_map_back {γ δ γ' δ' : Type} {f : γ → Option δ} {g : δ' → Option γ'} {u : γ → γ'}
    {v : δ → δ'} (hfg : ∀ {a b}, f a = some b → g (v b) = some (u a)) {as : List γ} {bs : List δ}
    (h : each f as = some bs) : each g (bs.map v) = some (as.map u) := by
  rw [each_eq_some] at h ⊢
  exact forall₂_map_left_iff.mpr (forall₂_map_right_iff.mpr (h.flip.imp fun _ _ => hfg))

theorem each_mem {γ δ : Type} {f : γ → Option δ} {as : List γ} {bs : List δ}
    (h : each f as = some bs) {b : δ} (hb : b ∈ bs) : ∃ a ∈ as, f a = some b :=
  forall₂_exists_left (each_eq_some.mp h) hb

def slice (c : Codec α) : Codec (Option (List α)) where
  zero := none
  encode
    | none => some .null
    | some as => (each c.encode as).map .arr
  decode
    | .null => some none
    | .arr js => (each c.decode js).map some
    | _ => none
  norm as := as.map (List.map c.norm)
  decode_encode := by
    intro a j h
    cases a with
    | none => cases h; rfl
    | some as =>
      obtain ⟨js, hjs, rfl⟩ := Option.map_eq_some_iff.mp h
      simp only [Json.coerced, Json.coercedItems_eq_map, each_map_back c.decode_encode hjs,
        Option.map_some]
  encode_norm := by
    intro a j h
    cases a with
    | none => cases h; rfl
    | some as =>
      obtain ⟨js, hjs, rfl⟩ := Option.map_eq_some_iff.mp h
      simp only [Json.coerced, Json.coercedItems_eq_map, Option.map_some,
        each_map c.encode_norm hjs]
  distinct := by
    intro a j h
    cases a with
    | none => cases h; rfl
    | some as =>
      obtain ⟨js, hjs, rfl⟩ := Option.map_eq_some_iff.mp h
      rw [Json.coerced, Json.coercedItems_eq_map]
      refine Json.distinctItems_iff.mpr fun j hj => ?_
      obtain ⟨j, hin, rfl⟩ := mem_map.mp hj
      obtain ⟨a, -, ha⟩ := each_mem hjs hin
      exact c.distinct ha

/-- A pointer to a type whose values are never `null`. -/
def pointer (c : Codec α) (ne_null : ∀ {a j}, c.encode a = some j → j.coerced ≠ .null) :
    Codec (Option α) where
  zero := none
  encode
    | none => some .null
    | some a => c.encode a
  decode
    | .null => some none
    | j => (c.decode j).map some
  norm a := a.map c.norm
  decode_encode := by
    intro a j h
    cases a with
    | none => cases h; rfl
    | some a =>
      have hread := c.decode_encode h
      cases hj : j.coerced with
      | null => exact absurd hj (ne_null h)
      | _ =>
        rw [hj] at hread
        simp only [hread, Option.map_some]
  encode_norm := by
    intro a j h
    cases a with
    | none => cases h; rfl
    | some a => exact c.encode_norm h
  distinct := by
    intro a j h
    cases a with
    | none => cases h; rfl
    | some a => exact c.distinct h

/-! ## Maps -/

/-- The order in which keys are written. -/
def keyOrder (k : Bytes) : List Nat := k.map UInt8.toNat

theorem keyOrder_injective : Function.Injective keyOrder :=
  map_injective_iff.mpr fun _ _ h => UInt8.toNat_inj.mp h

/-- A map whose keys are text, as its entries in the order of their keys. Keys that are not text are
another matter: two of them may become one key when they are read, or change their order. -/
@[ext]
structure Table (α : Type) where
  entries : List (Bytes × α)
  sorted : entries.Pairwise fun a b => keyOrder a.1 < keyOrder b.1
  valid : ∀ e ∈ entries, Utf8.valid e.1 = true

namespace Table

/-- An entry in front of those read after it, which take its place if they share its key. -/
def insert (k : Bytes) (a : α) : List (Bytes × α) → List (Bytes × α)
  | [] => [(k, a)]
  | (k', a') :: rest =>
      if keyOrder k < keyOrder k' then (k, a) :: (k', a') :: rest
      else if k = k' then (k', a') :: rest
      else (k', a') :: insert k a rest

variable {l : List (Bytes × α)}

theorem insert_keys {k : Bytes} {a : α} {e : Bytes × α}
    (h : e ∈ insert k a l) : e = (k, a) ∨ e ∈ l := by
  induction l with
  | nil => exact .inl (mem_singleton.mp h)
  | cons e' rest ih =>
    obtain ⟨k', a'⟩ := e'
    simp only [insert] at h
    split at h
    · exact mem_cons.mp h
    split at h
    · exact .inr h
    · rcases mem_cons.mp h with rfl | h
      · exact .inr mem_cons_self
      · exact (ih h).imp_right (mem_cons_of_mem _)

theorem insert_sorted {k : Bytes} {a : α} (h : l.Pairwise fun a b => keyOrder a.1 < keyOrder b.1) :
    (insert k a l).Pairwise fun a b => keyOrder a.1 < keyOrder b.1 := by
  induction l with
  | nil => exact pairwise_singleton _ _
  | cons e rest ih =>
    obtain ⟨k', a'⟩ := e
    obtain ⟨hfirst, hrest⟩ := pairwise_cons.mp h
    simp only [insert]
    split
    case isTrue hlt =>
      refine pairwise_cons.mpr ⟨fun e he => ?_, h⟩
      rcases mem_cons.mp he with rfl | he
      · exact hlt
      · exact lt_trans hlt (hfirst e he)
    split
    · exact h
    case isFalse hnl hne =>
      refine pairwise_cons.mpr ⟨fun e he => ?_, ih hrest⟩
      rcases insert_keys he with rfl | he
      · exact lt_of_le_of_ne (not_lt.mp hnl) fun heq => hne (keyOrder_injective heq).symm
      · exact hfirst e he

/-- The map a list of entries builds, a later entry replacing an earlier one of the same key. The
keys a parser finds are valid already. -/
def ofList : List (Bytes × α) → Table α
  | [] => ⟨[], .nil, fun _ he => absurd he not_mem_nil⟩
  | e :: rest =>
      { entries := insert (Utf8.coerce e.1) e.2 (ofList rest).entries
        sorted := insert_sorted (ofList rest).sorted
        valid := fun e' he' => (insert_keys he').elim (fun h => h ▸ Utf8.valid_coerce e.1)
          ((ofList rest).valid e') }

theorem ofList_sorted (h : l.Pairwise fun a b => keyOrder a.1 < keyOrder b.1)
    (hv : ∀ e ∈ l, Utf8.valid e.1 = true) : (ofList l).entries = l := by
  induction l with
  | nil => rfl
  | cons e rest ih =>
    obtain ⟨hfirst, hrest⟩ := pairwise_cons.mp h
    obtain ⟨hk, hks⟩ := forall_mem_cons.mp hv
    simp only [ofList, ih hrest hks, Utf8.coerce_eq_self.mpr hk]
    cases rest with
    | nil => rfl
    | cons e' rest => rw [insert, if_pos (hfirst e' mem_cons_self)]

theorem nodup (t : Table α) : (t.entries.map (·.1)).Nodup := by
  rw [nodup_iff_pairwise_ne, pairwise_map]
  exact t.sorted.imp fun hlt heq => absurd (heq ▸ hlt) (lt_irrefl _)

def map (f : α → β) (t : Table α) : Table β where
  entries := t.entries.map fun e => (e.1, f e.2)
  sorted := List.pairwise_map.mpr t.sorted
  valid := List.forall_mem_map.mpr t.valid

end Table

def encodeEntry (c : Codec α) (e : Bytes × α) : Option (Bytes × Json) :=
  (c.encode e.2).map fun j => (e.1, j)

def decodeEntry (c : Codec α) (m : Bytes × Json) : Option (Bytes × α) :=
  (c.decode m.2).map fun a => (m.1, a)

theorem coercedMembers_entries (c : Codec α) (t : Table α) {ms : List (Bytes × Json)}
    (h : each (encodeEntry c) t.entries = some ms) :
    Json.coercedMembers ms = ms.map fun m => (m.1, m.2.coerced) := by
  rw [Json.coercedMembers_eq_map]
  refine map_congr_left fun m hm => ?_
  obtain ⟨e, he, hem⟩ := each_mem h hm
  obtain ⟨j, -, rfl⟩ := Option.map_eq_some_iff.mp hem
  rw [Utf8.coerce_eq_self.mpr (t.valid e he)]

theorem decodeEntry_coerced (c : Codec α) {e : Bytes × α} {m : Bytes × Json}
    (h : encodeEntry c e = some m) :
    decodeEntry c (m.1, m.2.coerced) = some (e.1, c.norm e.2) := by
  obtain ⟨j, hj, rfl⟩ := Option.map_eq_some_iff.mp h
  rw [decodeEntry, c.decode_encode hj]
  rfl

theorem encodeEntry_norm (c : Codec α) {e : Bytes × α} {m : Bytes × Json}
    (h : encodeEntry c e = some m) :
    encodeEntry c (e.1, c.norm e.2) = some (m.1, m.2.coerced) := by
  obtain ⟨j, hj, rfl⟩ := Option.map_eq_some_iff.mp h
  rw [encodeEntry, c.encode_norm hj]
  rfl

def table (c : Codec α) : Codec (Option (Table α)) where
  zero := none
  encode
    | none => some .null
    | some t => (each (encodeEntry c) t.entries).map .obj
  decode
    | .null => some none
    | .obj ms => (each (decodeEntry c) ms).map fun es => some (Table.ofList es)
    | _ => none
  norm t := t.map (Table.map c.norm)
  decode_encode := by
    intro t j h
    cases t with
    | none => cases h; rfl
    | some t =>
      obtain ⟨ms, hms, rfl⟩ := Option.map_eq_some_iff.mp h
      simp only [Json.coerced, coercedMembers_entries c t hms,
        each_map_back (decodeEntry_coerced c) hms, Option.map_some, Option.some.injEq]
      exact Table.ext (Table.ofList_sorted (t.map c.norm).sorted (t.map c.norm).valid)
  encode_norm := by
    intro t j h
    cases t with
    | none => cases h; rfl
    | some t =>
      obtain ⟨ms, hms, rfl⟩ := Option.map_eq_some_iff.mp h
      simp only [Json.coerced, coercedMembers_entries c t hms, Option.map_some, Table.map,
        each_map (encodeEntry_norm c) hms]
  distinct := by
    intro t j h
    cases t with
    | none => cases h; rfl
    | some t =>
      obtain ⟨ms, hms, rfl⟩ := Option.map_eq_some_iff.mp h
      have hkeys : t.entries.map (·.1) = ms.map (·.1) := by
        refine forall₂_map_eq (each_eq_some.mp hms) fun e _ m hm => ?_
        obtain ⟨j, -, rfl⟩ := Option.map_eq_some_iff.mp hm
        rfl
      rw [Json.coerced, coercedMembers_entries c t hms, Json.distinct_obj, map_map]
      refine ⟨hkeys ▸ t.nodup, forall_mem_map.mpr fun m hm => ?_⟩
      obtain ⟨e, -, hem⟩ := each_mem hms hm
      obtain ⟨j, hj, rfl⟩ := Option.map_eq_some_iff.mp hem
      exact c.distinct hj

end Codec

/-! ## Records -/

/-- The fields of a record, called `names`, whose values are a tuple of type `ρ`. The laws are a
codec's, for the list of members that makes an object. -/
structure Fields (names : List Bytes) (ρ : Type) where
  zero : ρ
  write : ρ → Option (List (Bytes × Json))
  /-- One member of an object, stored into the field it names. -/
  read : Bytes → Json → ρ → Option ρ
  norm : ρ → ρ
  names_nodup : names.Nodup
  write_names : ∀ {r ms}, write r = some ms → ((Json.coercedMembers ms).map (·.1)).Sublist names
  read_write : ∀ {r ms}, write r = some ms →
    (Json.coercedMembers ms).foldlM (fun r m => read m.1 m.2 r) zero = some (norm r)
  write_norm : ∀ {r ms}, write r = some ms → write (norm r) = some (Json.coercedMembers ms)
  distinct_write : ∀ {r ms}, write r = some ms →
    ∀ m ∈ Json.coercedMembers ms, m.2.distinct = true

namespace Fields

variable {α ρ σ : Type} {names : List Bytes}

def nil : Fields [] Unit where
  zero := ()
  write _ := some []
  read _ _ _ := none
  norm := id
  names_nodup := .nil
  write_names := by rintro r ms ⟨⟩; exact .slnil
  read_write := by rintro r ms ⟨⟩; rfl
  write_norm := by rintro r ms ⟨⟩; rfl
  distinct_write := by rintro r ms ⟨⟩ m hm; cases hm

section Cons

variable (name : Bytes) (skips : α → Bool) (c : Codec α) (rest : Fields names ρ)

def consWrite (r : α × ρ) : Option (List (Bytes × Json)) :=
  match rest.write r.2 with
  | none => none
  | some ms => if skips r.1 then some ms else (c.encode r.1).map fun j => (name, j) :: ms

def consRead (k : Bytes) (j : Json) (r : α × ρ) : Option (α × ρ) :=
  if k = name then (c.decode j).map fun a => (a, r.2) else (rest.read k j r.2).map fun r' => (r.1, r')

variable {name skips c rest}

theorem consWrite_eq_some {r : α × ρ} {ms : List (Bytes × Json)}
    (h : consWrite name skips c rest r = some ms) :
    ∃ ms', rest.write r.2 = some ms' ∧
      ((skips r.1 = true ∧ ms = ms') ∨
        skips r.1 = false ∧ ∃ j, c.encode r.1 = some j ∧ ms = (name, j) :: ms') := by
  unfold consWrite at h
  split at h
  case h_1 => cases h
  case h_2 ms' hms' =>
    refine ⟨ms', hms', ?_⟩
    split at h
    case isTrue hskip => cases h; exact .inl ⟨hskip, rfl⟩
    case isFalse hskip =>
      obtain ⟨j, hj, rfl⟩ := Option.map_eq_some_iff.mp h
      exact .inr ⟨Bool.not_eq_true _ ▸ hskip, j, hj, rfl⟩

theorem foldlM_consRead (ms : List (Bytes × Json)) (hms : ∀ m ∈ ms, m.1 ≠ name) (a : α) (r : ρ) :
    ms.foldlM (fun r m => consRead name c rest m.1 m.2 r) (a, r) =
      (ms.foldlM (fun r m => rest.read m.1 m.2 r) r).map fun r' => (a, r') := by
  induction ms generalizing r with
  | nil => rfl
  | cons m ms ih =>
    simp only [foldlM_cons, consRead, if_neg (hms m mem_cons_self)]
    cases rest.read m.1 m.2 r with
    | none => rfl
    | some r' => exact ih (fun m hm => hms m (mem_cons_of_mem _ hm)) r'

/-- A field in front of others. A field that `skips` its value is not written. -/
def optional (name : Bytes) (skips : α → Bool) (c : Codec α) (rest : Fields names ρ)
    (skips_zero : ∀ a, skips a = true → skips c.zero = true)
    (skips_norm : ∀ a, skips (c.norm a) = skips a)
    (valid : Utf8.valid name = true := by decide +kernel)
    (fresh : name ∉ names := by decide +kernel) : Fields (name :: names) (α × ρ) where
  zero := (c.zero, rest.zero)
  write := consWrite name skips c rest
  read := consRead name c rest
  norm r := (if skips r.1 then c.zero else c.norm r.1, rest.norm r.2)
  names_nodup := List.nodup_cons.mpr ⟨fresh, rest.names_nodup⟩
  write_names := by
    intro r ms h
    obtain ⟨ms', hms', ⟨-, rfl⟩ | ⟨-, j, -, rfl⟩⟩ := consWrite_eq_some h
    · exact (rest.write_names hms').cons name
    · rw [Json.coercedMembers, Utf8.coerce_eq_self.mpr valid]
      exact (rest.write_names hms').cons_cons name
  read_write := by
    intro r ms h
    obtain ⟨ms', hms', hcase⟩ := consWrite_eq_some h
    have hother : ∀ m ∈ Json.coercedMembers ms', m.1 ≠ name := fun m hm heq =>
      fresh (heq ▸ (rest.write_names hms').subset (List.mem_map_of_mem hm))
    obtain ⟨hskip, rfl⟩ | ⟨hskip, j, hje, rfl⟩ := hcase
    · rw [foldlM_consRead _ hother, rest.read_write hms', if_pos hskip]
      rfl
    · have hfirst : consRead name c rest name j.coerced (c.zero, rest.zero) =
          some (c.norm r.1, rest.zero) := by
        rw [consRead, if_pos rfl, c.decode_encode hje]
        rfl
      rw [Json.coercedMembers, Utf8.coerce_eq_self.mpr valid, List.foldlM_cons, hfirst,
        Option.bind_eq_bind, Option.bind_some, foldlM_consRead _ hother, rest.read_write hms', hskip]
      rfl
  write_norm := by
    intro r ms h
    obtain ⟨ms', hms', ⟨hskip, rfl⟩ | ⟨hskip, j, hje, rfl⟩⟩ := consWrite_eq_some h
    · simp only [consWrite, rest.write_norm hms', if_pos hskip, skips_zero r.1 hskip, if_true]
    · simp only [consWrite, rest.write_norm hms', hskip, Bool.false_eq_true, if_false, skips_norm,
        c.encode_norm hje, Option.map_some, Json.coercedMembers, Utf8.coerce_eq_self.mpr valid]
  distinct_write := by
    intro r ms h m hm
    obtain ⟨ms', hms', ⟨-, rfl⟩ | ⟨-, j, hj, rfl⟩⟩ := consWrite_eq_some h
    · exact rest.distinct_write hms' m hm
    · rcases List.mem_cons.mp hm with rfl | hm
      · exact c.distinct hj
      · exact rest.distinct_write hms' m hm

def field (name : Bytes) (c : Codec α) (rest : Fields names ρ)
    (valid : Utf8.valid name = true := by decide +kernel)
    (fresh : name ∉ names := by decide +kernel) : Fields (name :: names) (α × ρ) :=
  optional name (fun _ => false) c rest (fun _ h => h) (fun _ => rfl) valid fresh

end Cons

end Fields

/-- A record, its fields taken apart by `split` and put together by `build`. -/
def Codec.record {ρ σ : Type} {names : List Bytes} (split : σ → ρ) (build : ρ → σ) (fields : Fields names ρ)
    (split_build : ∀ r, split (build r) = r) : Codec σ where
  zero := build fields.zero
  encode s := (fields.write (split s)).map .obj
  decode
    | .null => some (build fields.zero)
    | .obj ms => (ms.foldlM (fun r m => fields.read m.1 m.2 r) fields.zero).map build
    | _ => none
  norm s := build (fields.norm (split s))
  decode_encode := by
    intro s j h
    obtain ⟨ms, hms, rfl⟩ := Option.map_eq_some_iff.mp h
    simp only [Json.coerced, fields.read_write hms, Option.map_some]
  encode_norm := by
    intro s j h
    obtain ⟨ms, hms, rfl⟩ := Option.map_eq_some_iff.mp h
    rw [split_build, fields.write_norm hms]
    rfl
  distinct := by
    intro s j h
    obtain ⟨ms, hms, rfl⟩ := Option.map_eq_some_iff.mp h
    exact Json.distinct_obj.mpr
      ⟨fields.names_nodup.sublist (fields.write_names hms), fields.distinct_write hms⟩

theorem Codec.record_ne_null {ρ σ : Type} {names : List Bytes} {split : σ → ρ} {build : ρ → σ}
    {fields : Fields names ρ} {split_build : ∀ r, split (build r) = r} {s : σ} {j : Json}
    (h : (Codec.record split build fields split_build).encode s = some j) : j.coerced ≠ .null := by
  obtain ⟨ms, -, rfl⟩ := Option.map_eq_some_iff.mp h
  exact nofun

end Lib
