import Mathlib.Data.List.Basic
import Perimeterd.Lib.Result

/-!
# Normal URLs

`NormalizeIPListURL` of `internal/config/normalize.go`: the URL of an IP list, with its scheme and its
host in lower case. A record in the cache is accepted only with a URL that is its own normal form, and
a record is written with the normal form of what was configured. So a list could never be read back if
normalizing a normal URL changed it again, or refused it (`normalizeIPListURL_normal`).

What the function takes from the standard library is `NetURL`. Its law is about `url.Parse` and
`URL.String` alone: a URL that was parsed is read back from its text, in lower case too.
-/

namespace Perimeterd.Config

open Lib

/-- What `NormalizeIPListURL` reads of a `url.URL`. Path and query are passed on as they are. -/
structure URL where
  scheme : String
  user : Bool
  host : String
  rest : String
deriving DecidableEq

/-- The host before its last colon, where digits follow that colon: `splitHostPort` of `net/url`. -/
def withoutPort (host : List Char) : List Char :=
  let port := host.reverse.takeWhile (· ≠ ':')
  if ':' ∈ host ∧ port.all Char.isDigit then (host.reverse.drop (port.length + 1)).reverse else host

def hostname (host : List Char) : List Char :=
  let name := withoutPort host
  if name.head? = some '[' ∧ name.getLast? = some ']' then name.tail.dropLast else name

/-- The host of an IPv6 literal keeps its case, as a zone may depend on it. -/
def URL.lowered (lower : Char → Char) (u : URL) : URL :=
  { u with
    scheme := u.scheme.map lower
    host := if u.host.toList.head? = some '[' then u.host else u.host.map lower }

/-- The characters `NormalizeIPListURL` looks for in the text itself. -/
def plainText (value : String) : Prop := ∀ c ∈ ['\r', '\n', '#'], c ∉ value.toList

/-- `url.Parse`, `URL.String` and `unicode.ToLower`. -/
structure NetURL where
  parse : String → Option URL
  string : URL → String
  lower : Char → Char
  lower_lower : ∀ c, lower (lower c) = lower c
  lower_mark : ∀ c, ∀ m ∈ [':', '[', ']'], (lower c = m ↔ c = m)
  lower_digit : ∀ c, (lower c).isDigit = c.isDigit
  reparse : ∀ {value u}, parse value = some u → plainText value → u.host ≠ "" → u.user = false →
    parse (string (u.lowered lower)) = some (u.lowered lower) ∧ plainText (string (u.lowered lower))

namespace NetURL

variable (net : NetURL)

def normalizeIPListURL (value : String) : Except String String :=
  if '\r' ∈ value.toList ∨ '\n' ∈ value.toList then .error "invalid URL"
  else
    match net.parse value with
    | none => .error "must be an absolute http or https URL"
    | some parsed =>
        if parsed.host = "" ∨ hostname parsed.host.toList = [] then
          .error "must be an absolute http or https URL"
        else if parsed.user then .error "user information is not allowed"
        else if '#' ∈ value.toList then .error "fragment is not allowed"
        else
          let parsed := parsed.lowered net.lower
          if parsed.scheme ≠ "http" ∧ parsed.scheme ≠ "https" then
            .error "must be an absolute http or https URL"
          else .ok (net.string parsed)

variable {net}

theorem withoutPort_map (host : List Char) :
    withoutPort (host.map net.lower) = (withoutPort host).map net.lower := by
  have hcolon : ∀ c, decide (net.lower c ≠ ':') = decide (c ≠ ':') := fun c =>
    decide_eq_decide.mpr (not_congr (net.lower_mark c ':' (by decide)))
  have hport : ((host.map net.lower).reverse.takeWhile (· ≠ ':')) =
      (host.reverse.takeWhile (· ≠ ':')).map net.lower := by
    rw [← List.map_reverse, List.takeWhile_map]
    exact congrArg _ (congrArg (List.takeWhile · _) (funext hcolon))
  have hmem : ':' ∈ host.map net.lower ↔ ':' ∈ host := by
    simp [List.mem_map, net.lower_mark _ ':' (by decide)]
  simp only [withoutPort, hport, hmem, List.length_map, List.all_map, Function.comp_def,
    net.lower_digit]
  split
  · rw [← List.map_reverse, ← List.map_drop, List.map_reverse]
  · rfl

theorem hostname_map (host : List Char) :
    hostname (host.map net.lower) = (hostname host).map net.lower := by
  simp only [hostname, withoutPort_map, List.head?_map, List.getLast?_map, Option.map_eq_some_iff,
    net.lower_mark _ '[' (by decide), net.lower_mark _ ']' (by decide), exists_eq_right]
  split
  · rw [← List.map_tail, List.map_dropLast]
  · rfl

theorem lowered_lowered (u : URL) :
    (u.lowered net.lower).lowered net.lower = u.lowered net.lower := by
  have hmap : ∀ s : String, (s.map net.lower).map net.lower = s.map net.lower := by
    intro s
    apply String.toList_inj.mp
    simp [net.lower_lower]
  unfold URL.lowered
  split
  case isTrue => simp only [hmap]
  case isFalse h =>
    have hn : ¬ (u.host.map net.lower).toList.head? = some '[' := by
      simpa [net.lower_mark _ '[' (by decide)] using h
    simp only [hmap, if_neg hn]

theorem lowered_host {u : URL} (h : ¬ (u.host = "" ∨ hostname u.host.toList = [])) :
    ¬ ((u.lowered net.lower).host = "" ∨ hostname (u.lowered net.lower).host.toList = []) := by
  unfold URL.lowered
  split
  · exact h
  · rwa [String.toList_map, hostname_map, List.map_eq_nil_iff, ← String.toList_eq_nil_iff,
      String.toList_map, List.map_eq_nil_iff, String.toList_eq_nil_iff]

/-- **A normal URL is its own normal form.** -/
theorem normalizeIPListURL_normal {u v : String} (h : net.normalizeIPListURL u = .ok v) :
    net.normalizeIPListURL v = .ok v := by
  unfold normalizeIPListURL at h
  obtain ⟨hline, h⟩ := ite_throw_eq_ok.mp h
  split at h
  · cases h
  case h_2 parsed hparse =>
    obtain ⟨hhost, h⟩ := ite_throw_eq_ok.mp h
    obtain ⟨huser, h⟩ := ite_throw_eq_ok.mp h
    obtain ⟨hmark, h⟩ := ite_throw_eq_ok.mp h
    obtain ⟨hscheme, h⟩ := ite_throw_eq_ok.mp h
    cases h
    have hplain : plainText u := by
      intro c hc
      simp only [List.mem_cons, List.not_mem_nil, or_false] at hc
      rcases hc with rfl | rfl | rfl
      · exact fun hin => hline (.inl hin)
      · exact fun hin => hline (.inr hin)
      · exact hmark
    obtain ⟨hre, hclean⟩ := net.reparse hparse hplain (fun he => hhost (.inl he)) (by simpa using huser)
    unfold normalizeIPListURL
    rw [if_neg (not_or.mpr ⟨hclean _ (by decide), hclean _ (by decide)⟩), hre]
    dsimp only
    rw [if_neg (lowered_host hhost), if_neg (show ¬ (parsed.lowered _).user = true from huser), if_neg (hclean _ (by decide)), lowered_lowered,
      if_neg hscheme]

end NetURL

/-- A reader of `https` URLs that are in lower case as they stand. -/
def plainParse (value : String) : Option URL :=
  match value.toList with
  | 'h' :: 't' :: 't' :: 'p' :: 's' :: ':' :: '/' :: '/' :: rest =>
      let host := rest.takeWhile (· ≠ '/')
      some ⟨"https", '@' ∈ host, String.ofList host, String.ofList (rest.dropWhile (· ≠ '/'))⟩
  | _ => none

def plainURL : NetURL where
  parse := plainParse
  string u := "https://" ++ (u.host ++ u.rest)
  lower := id
  lower_lower _ := rfl
  lower_mark _ _ _ := Iff.rfl
  lower_digit _ := rfl
  reparse := by
    intro value u h hplain _ _
    have hid : u.lowered id = u := by simp [URL.lowered]
    have htext : "https://" ++ (u.host ++ u.rest) = value := by
      unfold plainParse at h
      split at h
      case h_2 => cases h
      case h_1 rest hvalue =>
        cases h
        apply String.toList_inj.mp
        simp only [hvalue, String.toList_append, String.toList_ofList, List.takeWhile_append_dropWhile]
        rfl
    rw [hid, htext]
    exact ⟨h, hplain⟩

end Perimeterd.Config
