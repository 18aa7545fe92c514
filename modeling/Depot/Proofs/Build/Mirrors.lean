import Mathlib.Data.List.Basic
import Mathlib.Data.List.TakeWhile
import Depot.Build.Workshop
import Depot.Proofs.Url.Authority

/-!
# What mirrors stand for

The name of a mirror is the host of the address as it is read; what comes behind the addresses of
the mirror is cut from the text as it is written. The two agree, so that the path is kept, exactly
if the text is written with the host as it is read and nothing else around it (`urlsFor_of_parsed`).
-/

namespace Depot.Workshop

open Url

variable {s : Workshop} {url name : String} {parsed : Url} {bases : List String}

/-- A character that does not count in the text of an address. -/
def isIgnored (c : Char) : Bool := c == '\t' || c == '\n' || c == '\r'

/-- What follows the authority of an address, as it is written: behind the colon of the scheme and
two slashes, if they are there, everything from the first slash, question mark or hash sign on. -/
def behindAuthority (url : String) : String :=
  let rest := (url.toList.dropWhile (· ≠ ':')).tail
  String.ofList <|
    match rest.dropWhile isIgnored with
    | '/' :: more =>
      match more.dropWhile isIgnored with
      | '/' :: authority => authority.dropWhile fun c => !endsAuthority .plain c
      | _ => rest
    | _ => rest

/-- The text of an address of a mirror is plain: the name and the end of the authority follow the
scheme in small letters. -/
def Written (name url : String) : Prop :=
  ∃ rest : String, url = "mirror://" ++ name ++ rest ∧
    ∀ c ∈ rest.toList.head?, endsAuthority .plain c = true

theorem behindName_eq (name rest : String) :
    behindName name ("mirror://" ++ name ++ rest) = rest := by
  have hcut : ("mirror://" ++ name).toList.isPrefixOf? ("mirror://" ++ name ++ rest).toList =
      some rest.toList := by
    rw [List.isPrefixOf?_eq_some_iff_append_eq, ← String.toList_append]
  simp only [behindName, hcut, String.ofList_toList]

theorem behindName_of_ne (h : ∀ rest, url ≠ "mirror://" ++ name ++ rest) :
    behindName name url = "" := by
  unfold behindName
  split
  · next rest hcut =>
    rw [List.isPrefixOf?_eq_some_iff_append_eq] at hcut
    refine absurd ?_ (h (String.ofList rest))
    rw [← String.toList_inj, String.toList_append, String.toList_ofList, hcut]
  · rfl

/-- What follows the authority in a text that begins with a name. -/
theorem behindAuthority_eq {rest : String}
    (hname : ∀ c ∈ name.toList, endsAuthority .plain c = false) :
    behindAuthority ("mirror://" ++ name ++ rest) =
      String.ofList (rest.toList.dropWhile fun c => !endsAuthority .plain c) := by
  have hchars : "mirror://".toList = ['m', 'i', 'r', 'r', 'o', 'r', ':', '/', '/'] := by decide
  have htail : (("mirror://" ++ name ++ rest).toList.dropWhile (· ≠ ':')).tail =
      '/' :: '/' :: (name.toList ++ rest.toList) := by
    rw [String.toList_append, String.toList_append, hchars]
    rfl
  have hdrop (l : List Char) : ('/' :: l).dropWhile isIgnored = '/' :: l := rfl
  simp only [behindAuthority, htail, hdrop]
  rw [List.dropWhile_append_of_pos fun c hc => by rw [hname c hc]; rfl]

theorem dropWhile_eq_self_iff (l : List Char) :
    (l.dropWhile fun c => !endsAuthority .plain c) = l ↔
      ∀ c ∈ l.head?, endsAuthority .plain c = true := by
  rw [List.dropWhile_eq_self_iff]
  cases l <;> simp

/-- What is cut from the text is what follows the authority exactly if the text is plain, or nothing
follows the authority and the text does not begin with the name. -/
theorem behindName_eq_behindAuthority_iff
    (hname : ∀ c ∈ name.toList, endsAuthority .plain c = false) :
    behindName name url = behindAuthority url ↔ Written name url ∨
      (behindAuthority url = "" ∧ ∀ rest, url ≠ "mirror://" ++ name ++ rest) := by
  by_cases hbegins : ∃ rest, url = "mirror://" ++ name ++ rest
  · obtain ⟨rest, rfl⟩ := hbegins
    have hiff : rest = String.ofList (rest.toList.dropWhile fun c => !endsAuthority .plain c) ↔
        ∀ c ∈ rest.toList.head?, endsAuthority .plain c = true := by
      rw [← dropWhile_eq_self_iff, ← String.toList_inj, String.toList_ofList, eq_comm]
    rw [behindName_eq, behindAuthority_eq hname, hiff]
    constructor
    · exact fun hends => .inl ⟨rest, rfl, hends⟩
    · rintro (⟨rest', hurl, hends⟩ | ⟨-, hnot⟩)
      · have hrest := behindName_eq name rest
        rw [hurl, behindName_eq] at hrest
        rwa [← hrest]
      · exact absurd rfl (hnot rest)
  · have hnot : ∀ rest, url ≠ "mirror://" ++ name ++ rest := not_exists.1 hbegins
    rw [behindName_of_ne hnot]
    constructor
    · exact fun hempty => .inr ⟨hempty.symm, hnot⟩
    · rintro (⟨rest, hurl, -⟩ | ⟨hempty, -⟩)
      · exact absurd hurl (hnot rest)
      · exact hempty.symm

theorem map_append_inj {bases : List String} (hbases : bases ≠ []) {rest rest' : String} :
    bases.map (· ++ rest) = bases.map (· ++ rest') ↔ rest = rest' := by
  constructor
  · intro h
    obtain ⟨base, bases, rfl⟩ := List.exists_cons_of_ne_nil hbases
    have hfirst := (List.cons.inj h).1
    rw [← String.toList_inj, String.toList_append, String.toList_append] at hfirst
    exact String.toList_inj.1 (List.append_cancel_left hfirst)
  · rintro rfl
    rfl

theorem urlsFor_of_mirror (hparse : Url.parse url = .ok parsed) (hscheme : parsed.scheme = "mirror")
    (hbases : s.mirrors.get? parsed.host = some bases) :
    s.urlsFor url = .ok (bases.map (· ++ behindName parsed.host url)) := by
  simp only [urlsFor, hparse, if_pos hscheme, hbases]

/-- The addresses that an address stands for, in whatever way it is written. One whose scheme is not
`mirror` stands for itself. Otherwise there is one for every address of its mirror, in order, and
behind each comes what follows the name where the text begins with `mirror://` and that name, and
nothing where it does not. This is what follows the authority, path, query and fragment as they are
written, exactly if the text is plain, or nothing follows the authority and the text does not begin
with the name. -/
theorem urlsFor_of_parsed (s : Workshop) (hparse : Url.parse url = .ok parsed) :
    (parsed.scheme ≠ "mirror" → s.urlsFor url = .ok [url]) ∧
    (parsed.scheme = "mirror" → ∀ bases, s.mirrors.get? parsed.host = some bases →
      (∀ rest, url = "mirror://" ++ parsed.host ++ rest →
        s.urlsFor url = .ok (bases.map (· ++ rest))) ∧
      ((∀ rest, url ≠ "mirror://" ++ parsed.host ++ rest) → s.urlsFor url = .ok bases) ∧
      (bases ≠ [] →
        (s.urlsFor url = .ok (bases.map (· ++ behindAuthority url)) ↔ Written parsed.host url ∨
          (behindAuthority url = "" ∧ ∀ rest, url ≠ "mirror://" ++ parsed.host ++ rest)))) := by
  constructor
  · intro hscheme
    simp only [urlsFor, hparse, if_neg hscheme]
  · intro hscheme bases hbases
    have hplain : styleOf parsed.scheme = .plain := by
      rw [hscheme]
      decide
    have hhost : ∀ c ∈ parsed.host.toList, endsAuthority .plain c = false :=
      fun c hc => not_endsAuthority_host hparse hplain hc
    rw [urlsFor_of_mirror hparse hscheme hbases]
    refine ⟨fun rest hurl => ?_, fun hnot => ?_, fun hne => ?_⟩
    · rw [hurl, behindName_eq]
    · rw [behindName_of_ne hnot]
      simp
    · rw [Except.ok.injEq, map_append_inj hne, behindName_eq_behindAuthority_iff hhost]

/-- A workshop with one mirror. -/
def alpine : Workshop where
  directory := "builds"
  mirrors := ⟨[("alpine", ["https://a.example", "https://b.example"])]⟩

/-- The path of an address that is written in the usual way is kept. -/
theorem urlsFor_alpine :
    alpine.urlsFor "mirror://alpine/v3.20/x.apk" =
      .ok ["https://a.example/v3.20/x.apk", "https://b.example/v3.20/x.apk"] := by
  have hparse : Url.parse "mirror://alpine/v3.20/x.apk" =
      .ok ⟨"mirror", "alpine", none, "/v3.20/x.apk", none⟩ := by decide +kernel
  have hbases : alpine.mirrors.get? "alpine" = some ["https://a.example", "https://b.example"] := by
    decide
  rw [((urlsFor_of_parsed alpine hparse).2 rfl _ hbases).1 "/v3.20/x.apk" (by decide)]
  decide

/-- The path is lost if the scheme is in capital letters. -/
theorem path_lost_in_capitals :
    Url.parse "MIRROR://alpine/x" = .ok ⟨"mirror", "alpine", none, "/x", none⟩ ∧
      behindAuthority "MIRROR://alpine/x" = "/x" ∧
      alpine.urlsFor "MIRROR://alpine/x" = .ok ["https://a.example", "https://b.example"] := by
  decide +kernel

end Depot.Workshop
