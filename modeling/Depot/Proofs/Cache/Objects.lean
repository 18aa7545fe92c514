import Depot.Proofs.Cache.Entry
import Depot.Proofs.Cache.Records

/-!
# Packages through the cache

Packages that are written when an entry is missed are what is handed over then, and on every hit
after that (`packages_kept`).
-/

namespace Depot.Cache

open Files

/-- Opens an entry and hands its packages to `take`. -/
def handed {α σ : Type} (fs : Files) (path : String) (expire : Nat) (produce : Files → Produced α)
    (take : σ → Package → Outcome σ) (start : σ) : σ × Outcome Unit :=
  readObjects Package.ofJson? take start (openEntry fs path expire produce).contents

theorem handed_of_contents {α σ : Type} {fs : Files} {path : String} {expire : Nat}
    {produce : Files → Produced α} {packages : List Package} (take : σ → Package → Outcome σ)
    (start : σ) (h : (openEntry fs path expire produce).contents =
      .ok (linesOf (packages.map Package.text)).toUTF8) :
    handed fs path expire produce take start = handOver take start packages := by
  rw [handed, h]
  exact readObjects_handOver take packages start

/-- Every package reads back from its record, and the record is one line that is not blank. So when
an entry is missed and packages are written, `take` is handed these packages in their order, up to
the first that it refuses; and so it is on every hit after that, whatever has happened to the files
in between, as long as the entry holds the same bytes. Packages can be written if the entry is
`Writable`: its temporary file can be created, and no directory is in its own place. -/
theorem packages_kept (c : Cache) (key : String) (version : Nat) :
    let path := c.entryPath key version
    (∀ p : Package, Package.ofText? p.text = some p ∧ (∀ ch ∈ p.text.toList, 32 ≤ ch.toNat) ∧
        Text.allBlank p.text.toList = false) ∧
      ∀ {α σ : Type} (fs : Files) (expire : Nat) (produce : Files → Produced α)
        (packages : List Package) (take : σ → Package → Outcome σ) (start : σ),
        Writable fs path → isFresh fs path expire = false →
        (produce (underway fs path)).bytes = (linesOf (packages.map Package.text)).toUTF8 →
        (produce (underway fs path)).result = .ok () →
        handed fs path expire produce take start = handOver take start packages ∧
          ∀ (fs' : Files) (expire' : Nat) (produce' : Files → Produced α),
            held fs' path = held (openEntry fs path expire produce).files path →
            isFresh fs' path expire' = true →
            (openEntry fs' path expire' produce').report = none ∧
              handed fs' path expire' produce' take start = handOver take start packages := by
  intro path
  refine ⟨fun p => ⟨p.ofText?_text, p.control_free_text, p.not_allBlank_text⟩, ?_⟩
  intro α σ fs expire produce packages take start hwritable hstale hbytes hdone
  obtain ⟨p, q, hready⟩ := hwritable.ready
  obtain ⟨done, hopen, hsame, hfile, -⟩ := openEntry_published produce hready hstale hdone
  rw [hbytes] at hopen hfile
  refine ⟨handed_of_contents take start (by rw [hopen]), ?_⟩
  intro fs' expire' produce' hheld hfresh
  rw [hopen, (hready.after hsame).held_eq, hfile] at hheld
  have hhit := openEntry_fresh produce' hfresh hheld
  exact ⟨by rw [hhit], handed_of_contents take start (by rw [hhit])⟩

/-! ### Two packages -/

/-- Two packages with texts that a line or a string must not be ended by. -/
def awkward : List Package :=
  [{ name := ⟨"alpine", "a\nb", "1", "", false⟩, description := "\r\n\"\\ \x00" },
    { name := ⟨"alpine", "b", "1", "", true⟩, size := 18446744073709551615
      downloaders := [.http "https://b" none, .http "https://b" (some 7)]
      depends := [[⟨"alpine", "a\nb", "", "", true⟩], []]
      directives := [.environment "PATH" "\u2028"] }]

/-- Files with a directory for entries. -/
def shelves : Files := ⟨⟨[(["cache"], .dir 0), (["cache", "managed"], .dir 0)]⟩⟩

/-- A miss that writes the two packages, and a hit a moment later: both hand over the two. -/
theorem awkward_kept :
    let path := entryPath ⟨"cache"⟩ "list" 1
    let write : Files → Produced Unit := fun _ =>
      ⟨(linesOf (awkward.map Package.text)).toUTF8, .ok (), ()⟩
    let fail : Files → Produced Unit := fun _ => ⟨.empty, .error .json, ()⟩
    handed shelves path 60 write (fun l p => .ok (l ++ [p])) [] = (awkward, .ok ()) ∧
      handed (openEntry shelves path 60 write).files path 60 fail (fun l p => .ok (l ++ [p])) [] =
        (awkward, .ok ()) := by
  intro path write fail
  have hwritable : Writable shelves path := ⟨by decide, by decide⟩
  obtain ⟨hmiss, hhit⟩ := (packages_kept ⟨"cache"⟩ "list" 1).2 shelves 60 write awkward
    (fun l p => .ok (l ++ [p])) [] hwritable (by decide) rfl rfl
  rw [handOver_collect, List.nil_append] at hmiss hhit
  exact ⟨hmiss, (hhit _ 60 fail rfl (by decide)).2⟩

end Depot.Cache
