import Perimeterd.Firewall.Validate

/-!
# The names of native sets

`setName` of `internal/firewall/nftables_model.go` makes an nftables name of a set ID: characters nft
would not take are replaced, one ID is special-cased, and a name that is too long is cut and given a
digest of the whole ID. Different sets of a target get different names all the same (`setName_inj`).

The argument is about underscores. A policy name has none, so a readable name of more than a few
characters has one, and the digest of a cut name is set off by a second.
-/

namespace Perimeterd.Firewall

open Policy List

/-! ## Bytes and characters -/

variable {id : String} {name : List Char}

theorem utf8ByteSize_of_ascii {s : String} (h : ∀ c ∈ s.toList, c.toNat ≤ 127) :
    s.utf8ByteSize = s.toList.length := by
  have hli : ∀ l : List Char, (∀ c ∈ l, c.toNat ≤ 127) →
      (String.ofList l).utf8ByteSize = l.length := by
    intro l
    induction l with
    | nil => exact fun _ => rfl
    | cons c l ih =>
      intro hl
      rw [forall_mem_cons] at hl
      have ho : c.utf8Size = 1 := Char.utf8Size_eq_one_iff.mpr (UInt32.le_iff_toNat_le.mpr hl.1)
      rw [String.ofList_cons, String.utf8ByteSize_append, String.utf8ByteSize_singleton, ih hl.2,
        ho, length_cons, Nat.add_comm]
  rw [← hli s.toList h, String.ofList_toList]

def nameChar (c : Char) : Bool := ('a' ≤ c && c ≤ 'z') || ('0' ≤ c && c ≤ '9') || c = '-'

theorem nameChar_bounds {c : Char} (h : nameChar c = true) : 45 ≤ c.toNat ∧ c.toNat ≤ 122 := by
  simp only [nameChar, Bool.or_eq_true, Bool.and_eq_true, decide_eq_true_eq, Char.le_def,
    UInt32.le_iff_toNat_le] at h
  change 45 ≤ c.val.toNat ∧ c.val.toNat ≤ 122
  rcases h with (⟨hlo, hhi⟩ | ⟨hlo, hhi⟩) | rfl
  · exact ⟨le_trans (by decide) hlo, hhi⟩
  · exact ⟨le_trans (by decide) hlo, le_trans hhi (by decide)⟩
  · decide

theorem nameChar_ne {c : Char} (h : nameChar c = true) : c ≠ '_' ∧ c ≠ '/' ∧ c ≠ ' ' ∧ c ≠ '.' := by
  refine ⟨?_, ?_, ?_, ?_⟩ <;> rintro rfl <;> revert h <;> decide

/-! ## Readable names -/

def readable (id : String) : String :=
  if id = "geo/eligible" then "geo_policy_eligible" else sanitizeRole id

/-- A shared set of the policy of that name. -/
structure IsGeo (id : String) (name : List Char) : Prop where
  toList : id.toList = 'g' :: 'e' :: 'o' :: '/' :: name
  chars : ∀ c ∈ name, nameChar c = true

theorem staticID_cases (h : validStaticSetID id = true) :
    id = "global_allowlist" ∨ id = "global_blocklist" ∨ id = "geo_eligible" ∨
      ∃ name, IsGeo id name := by
  simp only [validStaticSetID, Bool.or_eq_true, decide_eq_true_eq] at h
  rcases h with ((h | h) | h) | h
  · exact .inl h
  · exact .inr (.inl h)
  · exact .inr (.inr (.inl h))
  · unfold validGeoSetID at h
    split at h
    case h_1 first rest hl =>
      simp only [Bool.and_eq_true] at h
      exact .inr (.inr (.inr ⟨first :: rest, hl, all_eq_true.mp h.2⟩))
    case h_2 => cases h

theorem sanitize_names (h : ∀ c ∈ name, nameChar c = true) :
    (name.map fun c => if c = '/' ∨ c = ' ' ∨ c = '.' then '_' else c) = name := by
  refine (map_congr_left fun c hc => ?_).trans (map_id name)
  obtain ⟨-, hsl, hsp, hd⟩ := nameChar_ne (h c hc)
  simp [hsl, hsp, hd]

theorem IsGeo.readable_eq (h : IsGeo id name)
    (hne : id ≠ "geo/eligible") : (readable id).toList = 'g' :: 'e' :: 'o' :: '_' :: name := by
  rw [readable, if_neg hne, sanitizeRole, String.toList_ofList, h.toList]
  simp only [map_cons, sanitize_names h.chars]
  rfl

theorem IsGeo.count (h : IsGeo id name)
    (hne : id ≠ "geo/eligible") : (readable id).toList.count '_' = 1 := by
  have hno : name.count '_' = 0 :=
    count_eq_zero.mpr fun hmem => (nameChar_ne (h.chars _ hmem)).1 rfl
  rw [h.readable_eq hne]
  simp [hno]

theorem readable_cases (h : validStaticSetID id = true) :
    ((readable id).toList.length ≤ 19 ∧ (id = "global_allowlist" ∨ id = "global_blocklist" ∨
      id = "geo_eligible" ∨ id = "geo/eligible")) ∨
      ∃ name, IsGeo id name ∧ id ≠ "geo/eligible" := by
  by_cases hel : id = "geo/eligible"
  · subst hel
    exact .inl ⟨by decide, by simp⟩
  rcases staticID_cases h with rfl | rfl | rfl | ⟨name, hg⟩
  · exact .inl ⟨by decide, by simp⟩
  · exact .inl ⟨by decide, by simp⟩
  · exact .inl ⟨by decide, by simp⟩
  · exact .inr ⟨name, hg, hel⟩

theorem readable_inj {a b : String} (ha : validStaticSetID a = true) (hb : validStaticSetID b = true)
    (h : readable a = readable b) : a = b := by
  -- none of the four other readable names is a policy's
  have hother : ∀ {c d : String} {name : List Char}, IsGeo d name → d ≠ "geo/eligible" →
      (c = "global_allowlist" ∨ c = "global_blocklist" ∨ c = "geo_eligible" ∨ c = "geo/eligible") →
        readable c ≠ readable d := by
    intro c d name hd hne hc heq
    have hl : (readable c).toList = 'g' :: 'e' :: 'o' :: '_' :: name := heq ▸ hd.readable_eq hne
    have hch := hd.chars
    rcases hc with rfl | rfl | rfl | rfl
    · cases hl
    · cases hl
    · refine hne (String.ext ?_)
      rw [hd.toList]
      have hna : name = "eligible".toList := by
        have : (readable "geo_eligible").toList = 'g' :: 'e' :: 'o' :: '_' :: "eligible".toList := by
          decide
        rw [this] at hl
        simpa using hl.symm
      rw [hna]
      decide
    · have hna : name = "policy_eligible".toList := by
        have : (readable "geo/eligible").toList =
            'g' :: 'e' :: 'o' :: '_' :: "policy_eligible".toList := by decide
        rw [this] at hl
        simpa using hl.symm
      exact (nameChar_ne (hch '_' (by rw [hna]; decide))).1 rfl
  rcases readable_cases ha with ⟨-, hf⟩ | ⟨n, hn, hne⟩
  · rcases readable_cases hb with ⟨-, hf'⟩ | ⟨m, hm, hme⟩
    · rcases hf with rfl | rfl | rfl | rfl <;> rcases hf' with rfl | rfl | rfl | rfl <;> first
        | rfl
        | exact absurd h (by decide)
    · exact absurd h (hother hm hme hf)
  · rcases readable_cases hb with ⟨-, hf'⟩ | ⟨m, hm, hme⟩
    · exact absurd h.symm (hother hn hne hf')
    · have hli := congrArg String.toList h
      rw [hn.readable_eq hne, hm.readable_eq hme] at hli
      have hnm : n = m := by simpa using hli
      exact String.ext (by rw [hn.toList, hm.toList, hnm])

theorem ascii_of_all {l : List Char} (h : (l.all fun c => 0 < c.toNat && c.toNat ≤ 127) = true) :
    ∀ c ∈ l, 0 < c.toNat ∧ c.toNat ≤ 127 := by
  simpa using h

theorem readable_ascii (h : validStaticSetID id = true) :
    ∀ c ∈ (readable id).toList, 0 < c.toNat ∧ c.toNat ≤ 127 := by
  rcases readable_cases h with ⟨-, hf⟩ | ⟨name, hg, hne⟩
  · rcases hf with rfl | rfl | rfl | rfl <;> exact ascii_of_all (by decide)
  · rw [hg.readable_eq hne]
    have hst := ascii_of_all (l := ['g', 'e', 'o', '_']) (by decide)
    intro c hc
    rcases mem_append.mp (show c ∈ ['g', 'e', 'o', '_'] ++ name from hc) with hc | hc
    · exact hst c hc
    · have := nameChar_bounds (hg.chars c hc)
      omega

/-! ## Native names -/

/-- The texts of a hexadecimal SHA-256. -/
structure HexDigest (digest : String → String) : Prop where
  length : ∀ s, (digest s).toList.length = 64
  chars : ∀ s, ∀ c ∈ (digest s).toList, c ∈ "0123456789abcdef".toList

def stem (f : Family) : String := "set_" ++ familyToken f ++ "_"

theorem stem_ascii (f : Family) : ∀ c ∈ (stem f).toList, 0 < c.toNat ∧ c.toNat ≤ 127 := by
  cases f <;> exact ascii_of_all (by decide)

theorem stem_length (f : Family) : (stem f).toList.length = 7 := by cases f <;> decide

section Names

variable {dg : String → String} {id a b : String} {f g : Family} {t : Target}

theorem HexDigest.ascii (h : HexDigest dg) (s : String) :
    ∀ c ∈ (dg s).toList, 0 < c.toNat ∧ c.toNat ≤ 127 := by
  have hh := ascii_of_all (l := "0123456789abcdef".toList) (by decide)
  exact fun c hc => hh c (h.chars s c hc)

/-- The role of a static set's name: whole while there is room, then cut and with a digest. -/
def staticRole (digest : String → String) (f : Family) (id : String) : List Char :=
  (stem f).toList ++
    if (readable id).toList.length ≤ 179 then (readable id).toList
    else (readable id).toList.take 113 ++ '_' :: 'h' :: (digest id).toList

theorem setName_static (h : HexDigest dg) (t : Target) (f : Family)
    (hid : validStaticSetID id = true) : setName.static dg t f id =
      ⟨t.owner, .generation t.generation, String.ofList (staticRole dg f id)⟩ := by
  have hre : (readable id).utf8ByteSize = (readable id).toList.length :=
    utf8ByteSize_of_ascii fun c hc => (readable_ascii hid c hc).2
  have hd : (dg id).utf8ByteSize = 64 :=
    (utf8ByteSize_of_ascii fun c hc => (h.ascii id c hc).2).trans (h.length id)
  have hst : (stem f).utf8ByteSize = 7 := by cases f <;> rfl
  have hbytes : ∀ role : String,
      (⟨t.owner, .generation t.generation, role⟩ : Artifact).bytes = 69 + role.utf8ByteSize :=
    fun _ => rfl
  have hro : maxNFTNameBytes - (⟨t.owner, .generation t.generation, stem f⟩ : Artifact).bytes -
      ("_h" ++ dg id).utf8ByteSize = 113 := by
    rw [hbytes, hst, String.utf8ByteSize_append, hd]
    rfl
  have hw : (⟨t.owner, .generation t.generation, stem f ++ readable id⟩ : Artifact).bytes ≤
      maxNFTNameBytes ↔ (readable id).toList.length ≤ 179 := by
    rw [hbytes, String.utf8ByteSize_append, hst, hre]
    change 69 + (7 + _) ≤ 255 ↔ _
    omega
  change (if (⟨t.owner, .generation t.generation, stem f ++ readable id⟩ : Artifact).bytes ≤
      maxNFTNameBytes then (⟨t.owner, .generation t.generation, stem f ++ readable id⟩ : Artifact)
    else ⟨t.owner, .generation t.generation, stem f ++ String.ofList ((readable id).toList.take
      (maxNFTNameBytes - (⟨t.owner, .generation t.generation, stem f⟩ : Artifact).bytes -
        ("_h" ++ dg id).utf8ByteSize)) ++ ("_h" ++ dg id)⟩) = _
  rw [hro, staticRole]
  by_cases hsh : (readable id).toList.length ≤ 179
  · rw [if_pos (hw.mpr hsh), if_pos hsh, String.ofList_append, String.ofList_toList,
      String.ofList_toList]
  · rw [if_neg (fun hle => hsh (hw.mp hle)), if_neg hsh]
    refine congrArg (Artifact.mk _ _) (String.ext ?_)
    simp only [String.toList_append, String.toList_ofList, append_assoc]
    rfl

theorem staticRole_ascii (h : HexDigest dg) (f : Family)
    (hid : validStaticSetID id = true) : ∀ c ∈ staticRole dg f id, 0 < c.toNat ∧ c.toNat ≤ 127 := by
  intro c hc
  rcases mem_append.mp hc with hc | hc
  · exact stem_ascii f c hc
  split at hc
  · exact readable_ascii hid c hc
  · rcases mem_append.mp hc with hc | hc
    · exact readable_ascii hid c (mem_of_mem_take hc)
    · rcases mem_cons.mp hc with rfl | hc
      · decide
      rcases mem_cons.mp hc with rfl | hc
      · decide
      · exact h.ascii id c hc

theorem staticRole_length (h : HexDigest dg) (f : Family) (id : String) :
    (staticRole dg f id).length ≤ 186 := by
  rw [staticRole, length_append, stem_length]
  split
  · omega
  · rw [length_append, length_take, length_cons, length_cons, h.length]
    omega

/-- **A name fits**, however long the ID is. -/
theorem setName_static_valid (h : HexDigest dg) (t : Target) (f : Family)
    (hid : validStaticSetID id = true) : validNFTName (setName.static dg t f id) = true := by
  have hasc := staticRole_ascii h f hid
  have hl := staticRole_length h f id
  have hsi : (String.ofList (staticRole dg f id)).utf8ByteSize = (staticRole dg f id).length := by
    rw [utf8ByteSize_of_ascii, String.toList_ofList]
    intro c hc
    rw [String.toList_ofList] at hc
    exact (hasc c hc).2
  have hp : '\x00' ∉ staticRole dg f id := fun hmem => absurd (hasc _ hmem).1 (by decide)
  rw [setName_static h t f hid, validNFTName, Bool.and_eq_true, decide_eq_true_eq]
  constructor
  · change 69 + (String.ofList (staticRole dg f id)).utf8ByteSize ≤ 255
    omega
  · simpa using hp

theorem whole_ne_cut (ha : validStaticSetID a = true) (hb : validStaticSetID b = true)
    {d : List Char} (hd : d.length = 64) (hlo : 179 < (readable b).toList.length) :
    (readable a).toList ≠ (readable b).toList.take 113 ++ '_' :: 'h' :: d := by
  intro heq
  have hl := congrArg List.length heq
  have hc := congrArg (List.count '_') heq
  rw [length_append, length_take, length_cons, length_cons, hd] at hl
  rw [count_append, count_cons_self] at hc
  -- both names are policies'
  rcases readable_cases ha with ⟨hsh, -⟩ | ⟨n, hn, hne⟩
  · omega
  rcases readable_cases hb with ⟨hsh, -⟩ | ⟨m, hm, hme⟩
  · omega
  have hfirst : 0 < ((readable b).toList.take 113).count '_' := by
    rw [hm.readable_eq hme]
    simp
  rw [hn.count hne] at hc
  omega

theorem staticRole_inj (h : HexDigest dg)
    (ha : validStaticSetID a = true) (hb : validStaticSetID b = true) (hc : dg a = dg b → a = b)
    (heq : staticRole dg f a = staticRole dg g b) : f = g ∧ a = b := by
  obtain ⟨hst, hrest⟩ := append_inj heq ((stem_length f).trans (stem_length g).symm)
  refine ⟨?_, ?_⟩
  · cases f <;> cases g <;> first | rfl | exact absurd hst (by decide)
  · split at hrest <;> split at hrest
    · exact readable_inj ha hb (String.ext hrest)
    case isTrue.isFalse hl => exact absurd hrest (whole_ne_cut ha hb (h.length b) (by omega))
    case isFalse.isTrue hl _ =>
      exact absurd hrest.symm (whole_ne_cut hb ha (h.length a) (by omega))
    · have hcu : ((readable a).toList.take 113).length = ((readable b).toList.take 113).length := by
        rw [length_take, length_take]
        omega
      have hta := (append_inj hrest hcu).2
      simp only [List.cons.injEq, true_and] at hta
      exact hc (String.ext hta)

/-- A set ID the validator lets a target have. -/
def Usable (t : Target) (id : String) : Prop :=
  validStaticSetID id = true ∨ id = "crowdsec" ∧ t.dynamicGeneration.isSome = true

theorem setName_of_static (hid : validStaticSetID id = true) :
    setName dg t f id = setName.static dg t f id := by
  have hne : id ≠ "crowdsec" := by
    rintro rfl
    exact absurd hid (by decide)
  unfold setName
  split
  · rw [if_neg hne]
  · rfl

theorem setName_dynamic {d : Id} (hd : t.dynamicGeneration = some d) :
    setName dg t f "crowdsec" = ⟨t.owner, .generation d, "dynamic_" ++ familyToken f⟩ := by
  rw [setName, hd]
  exact if_pos rfl

theorem setName_valid (h : HexDigest dg) (f : Family)
    (hid : Usable t id) : validNFTName (setName dg t f id) = true := by
  rcases hid with hid | ⟨rfl, hsome⟩
  · rw [setName_of_static hid]
    exact setName_static_valid h t f hid
  · obtain ⟨d, hd⟩ := Option.isSome_iff_exists.mp hsome
    rw [setName_dynamic hd, validNFTName, Bool.and_eq_true, decide_eq_true_eq]
    change 69 + ("dynamic_" ++ familyToken f).utf8ByteSize ≤ 255 ∧
      (!("dynamic_" ++ familyToken f).toList.contains '\x00') = true
    cases f <;> decide

theorem setName_role_inj (h : HexDigest dg)
    (ha : Usable t a) (hb : Usable t b) (hco : dg a = dg b → a = b)
    (heq : (setName dg t f a).role = (setName dg t g b).role) : f = g ∧ a = b := by
  -- a dynamic name starts with another letter
  have hdy : ∀ {c : String} {f g : Family}, validStaticSetID c = true →
      t.dynamicGeneration.isSome = true →
        (setName dg t f "crowdsec").role ≠ (setName dg t g c).role := by
    intro c f g hc hsome heq
    obtain ⟨d, hd⟩ := Option.isSome_iff_exists.mp hsome
    rw [setName_of_static hc, setName_static h t g hc, setName_dynamic hd] at heq
    have hfirst := congrArg (fun role : String => role.toList.head?) heq
    rw [String.toList_ofList] at hfirst
    revert hfirst
    rw [staticRole]
    cases f <;> cases g <;> simp [stem, familyToken]
  rcases ha with ha | ⟨rfl, hsome⟩
  · rcases hb with hb | ⟨rfl, hsome⟩
    · rw [setName_of_static ha, setName_of_static hb, setName_static h t f ha,
        setName_static h t g hb] at heq
      have hro := congrArg String.toList heq
      simp only [String.toList_ofList] at hro
      exact staticRole_inj h ha hb hco hro
    · exact absurd heq.symm (hdy ha hsome)
  · rcases hb with hb | ⟨rfl, -⟩
    · exact absurd heq (hdy hb hsome)
    · obtain ⟨d, hd⟩ := Option.isSome_iff_exists.mp hsome
      rw [setName_dynamic hd, setName_dynamic hd] at heq
      refine ⟨?_, rfl⟩
      cases f <;> cases g <;> first | rfl | exact absurd heq (by simp [familyToken])

/-! ## Texts -/

theorem hex_length (id : Id) : (hex id).toList.length = 32 := by
  rw [hex, String.toList_ofList, length_map, length_reverse, length_range]

theorem hex_ascii (id : Id) : ∀ c ∈ (hex id).toList, c.toNat ≤ 127 := by
  have hdigit : ∀ n < 16, (hexDigit n).toNat ≤ 127 := by decide
  intro c hc
  rw [hex, String.toList_ofList] at hc
  obtain ⟨i, -, rfl⟩ := mem_map.mp hc
  exact hdigit _ (Nat.mod_lt _ (by decide))

theorem Artifact.text_bytes (a : Artifact) : a.text.utf8ByteSize = a.bytes := by
  have hh : ∀ id : Id, (hex id).utf8ByteSize = 32 :=
    fun id => (utf8ByteSize_of_ascii (hex_ascii id)).trans (hex_length id)
  obtain ⟨owner, token, role⟩ := a
  cases token with
  | stable =>
    simp only [Artifact.text, Artifact.bytes, String.utf8ByteSize_append, hh]
    rfl
  | generation id =>
    simp only [Artifact.text, Artifact.bytes, String.utf8ByteSize_append, hh]
    rfl

theorem role_of_text {o o' g g' : Id} {r r' : String}
    (h : (⟨o, .generation g, r⟩ : Artifact).text = (⟨o', .generation g', r'⟩ : Artifact).text) :
    r = r' := by
  have hl := congrArg String.toList h
  simp only [Artifact.text, String.toList_append] at hl
  refine String.ext (append_inj hl ?_).2
  simp only [length_append, hex_length]

theorem setName_token (h : HexDigest dg) (f : Family)
    (hid : Usable t id) : ∃ o g r, setName dg t f id = ⟨o, .generation g, r⟩ := by
  rcases hid with hid | ⟨rfl, hsome⟩
  · rw [setName_of_static hid, setName_static h t f hid]
    exact ⟨_, _, _, rfl⟩
  · obtain ⟨d, hd⟩ := Option.isSome_iff_exists.mp hsome
    rw [setName_dynamic hd]
    exact ⟨_, _, _, rfl⟩

/-- **Different sets of a target have different names**, as texts. -/
theorem setName_text_inj (h : HexDigest dg)
    (ha : Usable t a) (hb : Usable t b) (hc : dg a = dg b → a = b)
    (heq : (setName dg t f a).text = (setName dg t g b).text) : f = g ∧ a = b := by
  obtain ⟨o, g₁, r, hna⟩ := setName_token h f ha
  obtain ⟨o', g₂, r', hn'⟩ := setName_token h g hb
  refine setName_role_inj h ha hb hc ?_
  rw [hna, hn'] at heq ⊢
  exact role_of_text heq

end Names

/-! ## Counter names -/

/-- What a counter's name says after its owner. -/
def labelText (family : Family) (direction : Direction) (role : CounterRole) : String :=
  familyToken family ++ "_" ++ directionWord direction ++ "_" ++
    match role with
    | .processed => "processed"
    | .denied reason action => "denied_" ++ reasonText reason ++ "_" ++ actionText action

theorem CounterName.text_eq (n : CounterName) :
    n.text = "pd_" ++ hex n.owner ++ "_counter_" ++ labelText n.family n.direction n.role := by
  obtain ⟨owner, family, dir, role⟩ := n
  cases role <;>
    simp only [CounterName.text, labelText, join, cons_append, nil_append,
      String.intercalate_cons_cons, String.intercalate_singleton, String.append_assoc] <;>
    rfl

def allLabels : List (Family × Direction × CounterRole) := do
  let family ← [.ipv4, .ipv6]
  let direction ← [.ingress, .egress]
  let role ← .processed :: (do
    let reason ← [.globalBlocklist, .crowdsec, .geoPolicy]
    let action ← [.ret, .drop, .reject]
    pure (.denied reason action))
  pure (family, direction, role)

theorem mem_allLabels (family : Family) (dir : Direction) (role : CounterRole) :
    (family, dir, role) ∈ allLabels := by
  cases family <;> cases dir <;> cases role with
  | processed => decide
  | denied reason action => cases reason <;> cases action <;> decide

theorem labelText_inj {f f' : Family} {d d' : Direction} {r r' : CounterRole}
    (h : labelText f d r = labelText f' d' r') : f = f' ∧ d = d' ∧ r = r' := by
  have hal : ∀ x ∈ allLabels, ∀ y ∈ allLabels,
      labelText x.1 x.2.1 x.2.2 = labelText y.1 y.2.1 y.2.2 → x = y := by decide +kernel
  have heq := hal _ (mem_allLabels f d r) _ (mem_allLabels f' d' r') h
  simpa using heq

theorem hexDigit_ne_slash (n : Nat) : hexDigit n ≠ '/' := by
  rcases Nat.lt_or_ge n 16 with hlt | hge
  · revert n
    decide
  · have hno : "0123456789abcdef".toList[n]? = none := List.getElem?_eq_none (by simpa using hge)
    rw [hexDigit, getD_eq_getElem?_getD, hno]
    decide

theorem slash_not_mem_text (n : CounterName) : '/' ∉ n.text.toList := by
  have hl : ∀ x ∈ allLabels, '/' ∉ (labelText x.1 x.2.1 x.2.2).toList := by decide +kernel
  have hh : '/' ∉ (hex n.owner).toList := by
    rw [hex, String.toList_ofList]
    intro hmem
    obtain ⟨i, -, hi⟩ := mem_map.mp hmem
    exact hexDigit_ne_slash _ hi
  have hla := hl _ (mem_allLabels n.family n.direction n.role)
  rw [CounterName.text_eq]
  simp only [String.toList_append, mem_append, not_or]
  exact ⟨⟨⟨by decide, hh⟩, by decide⟩, hla⟩

/-- **A table and a counter name are read back from the identity they make**, and the name says its
labels. -/
theorem labels_of_identity {t t' : String} {n n' : CounterName}
    (h : t ++ "/" ++ n.text = t' ++ "/" ++ n'.text) :
    n.family = n'.family ∧ n.direction = n'.direction ∧ n.role = n'.role := by
  -- the last slash is the one between the two
  have hl : ∀ (t : String) (n : CounterName),
      (t ++ "/" ++ n.text).toList.reverse.takeWhile (· ≠ '/') = n.text.toList.reverse := by
    intro t n
    have hsl : ∀ c ∈ n.text.toList.reverse, decide (c ≠ '/') = true := by
      intro c hc
      refine decide_eq_true fun heq => slash_not_mem_text n ?_
      exact heq ▸ mem_reverse.mp hc
    rw [String.toList_append, String.toList_append, append_assoc, reverse_append,
      reverse_append, append_assoc, takeWhile_append_of_pos hsl]
    simp
  have hte : n.text = n'.text := by
    have := hl t n
    rw [h, hl t' n'] at this
    exact String.ext (reverse_injective this).symm
  rw [CounterName.text_eq, CounterName.text_eq] at hte
  have hli := congrArg String.toList hte
  simp only [String.toList_append] at hli
  refine labelText_inj (String.ext (append_inj hli ?_).2)
  simp only [length_append, hex_length]

end Perimeterd.Firewall
