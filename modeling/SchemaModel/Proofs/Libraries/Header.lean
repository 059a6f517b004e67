import SchemaModel.Libraries.Standard
import SchemaModel.Proofs.Document.Grammar
import SchemaModel.Proofs.Document.Header

/-!
The headers that the program reads are those of the form of one (`Info.isSome_read?`), and their
other members do not count (`Info.read?_congr`).
-/

namespace SchemaModel

open Json

theorem isSome_optional_iff {α : Type} {read? : Json → Option α} {form : Json → Prop}
    {fields : List (String × Json)} {key : String} (h : ∀ v, (read? v).isSome ↔ form v) :
    (Json.optional fields key read?).isSome ↔ Optionally fields key form := by
  rw [isSome_optional]
  simp only [Optionally, Bool.or_eq_true, isNull_iff, h]

theorem isSome_str?_iff (v : Json) : (str? v).isSome ↔ IsText v := by
  constructor
  · intro h
    cases v with
    | str text => exact .mk text
    | _ => cases h
  · rintro ⟨_⟩
    rfl

theorem isSome_isUrl?_iff (v : Json) : (isUrl? v).isSome ↔ IsUrl v := by
  constructor
  · intro h
    obtain ⟨text, htext⟩ := Option.isSome_iff_exists.1 h
    obtain ⟨hv, habsolute⟩ := Option.filter_eq_some_iff.1 htext
    cases v with
    | str _ =>
      cases hv
      exact .mk habsolute
    | _ => cases hv
  · rintro ⟨habsolute⟩
    exact Option.isSome_iff_exists.2 ⟨_, Option.filter_eq_some_iff.2 ⟨rfl, habsolute⟩⟩

theorem isSome_contact?_iff (v : Json) : (contact? v).isSome ↔ ContactForm v := by
  cases v with
  | obj fields =>
    simp only [contact?, obj?, Option.bind_eq_bind, Option.bind_some, Option.isSome_bind, any_const,
      Bool.and_eq_true, isSome_optional_iff isSome_str?_iff, isSome_optional_iff isSome_isUrl?_iff]
    constructor
    · rintro ⟨hname, hemail, hurl⟩
      exact .mk hname hemail hurl
    · rintro ⟨hname, hemail, hurl⟩
      exact ⟨hname, hemail, hurl⟩
  | _ => constructor <;> intro h <;> cases h

theorem isSome_license?_iff (v : Json) : (license? v).isSome ↔ LicenseForm v := by
  cases v with
  | obj fields =>
    simp only [license?, obj?, Option.bind_eq_bind, Option.bind_some, Option.isSome_bind, any_const,
      Bool.and_eq_true, any_isSome_str?, isSome_optional_iff isSome_str?_iff,
      isSome_optional_iff isSome_isUrl?_iff]
    constructor
    · rintro ⟨⟨name, hname⟩, hidentifier, hurl⟩
      exact .mk hname hidentifier hurl
    · rintro ⟨hname, hidentifier, hurl⟩
      exact ⟨⟨_, hname⟩, hidentifier, hurl⟩
  | _ => constructor <;> intro h <;> cases h

namespace Info

theorem isSome_read? (v : Json) : (Info.read? v).isSome ↔ InfoForm v := by
  cases v with
  | obj fields =>
    simp only [read?, obj?, Option.bind_eq_bind, Option.bind_some, Option.isSome_bind,
      Option.isSome_some, any_const, Bool.and_true, Bool.and_eq_true, any_isSome_str?,
      isSome_optional_iff isSome_str?_iff, isSome_optional_iff isSome_isUrl?_iff,
      isSome_optional_iff isSome_contact?_iff, isSome_optional_iff isSome_license?_iff]
    constructor
    · rintro ⟨⟨title, htitle⟩, ⟨version, hversion⟩, hsummary, hdescription, hterms, hcontact,
        hlicense⟩
      exact .mk htitle hversion hsummary hdescription hterms hcontact hlicense
    · rintro ⟨htitle, hversion, hsummary, hdescription, hterms, hcontact, hlicense⟩
      exact ⟨⟨_, htitle⟩, ⟨_, hversion⟩, hsummary, hdescription, hterms, hcontact, hlicense⟩
  | _ => constructor <;> intro h <;> cases h

theorem read?_congr {fields others : List (String × Json)}
    (h : ∀ key ∈ keywords, fields.lookup key = others.lookup key) :
    Info.read? (.obj fields) = Info.read? (.obj others) := by
  simp only [keywords, List.forall_mem_cons] at h
  obtain ⟨htitle, hversion, hsummary, hdescription, hterms, hcontact, hlicense, -⟩ := h
  simp only [read?, obj?, Option.bind_eq_bind, Option.bind_some, htitle, hversion,
    optional_congr hsummary, optional_congr hdescription, optional_congr hterms,
    optional_congr hcontact, optional_congr hlicense]

end Info

instance : LawfulHeader := ⟨Info.isSome_read?, Info.read?_congr⟩

end SchemaModel
