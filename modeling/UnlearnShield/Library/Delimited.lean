import Mathlib

/-! # Reading what was written

The text of a part may be followed by anything, or by one of some delimiters. From the
text of a part and of what follows, its value is read back when no other part with
another value can begin the same text. Parts that can be read so can be read one after
the other up to a closing symbol, and between separators.
-/
namespace UnlearnShield.Delimited
variable {σ α β γ : Type}

/-- What comes next is a delimiter, or the end. -/
def Stops (stops : List σ) (rest : List σ) : Prop := ∀ c ∈ rest.head?, c ∈ stops

theorem stops_nil (stops : List σ) : Stops stops [] := fun _ h => by cases h

theorem stops_cons {stops : List σ} {c : σ} (h : c ∈ stops) (rest : List σ) : Stops stops (c :: rest) := by
  intro c' hc'
  rw [← Option.some.inj hc']
  exact h

/-- Text before a delimiter ends where the delimiter begins. -/
theorem append_cancel {stops t u r s : List σ} (ht : ∀ c ∈ t, c ∉ stops) (hu : ∀ c ∈ u, c ∉ stops) (hr : Stops stops r)
    (hs : Stops stops s) (h : t ++ r = u ++ s) : t = u ∧ r = s := by
  induction t generalizing u with
  | nil =>
    cases u with
    | nil => exact ⟨rfl,h⟩
    | cons c u =>
      have hc : c ∈ stops := hr c (by rw [show r = c :: (u ++ s) from h]; rfl)
      exact absurd hc (hu c List.mem_cons_self)
  | cons c t ih =>
    cases u with
    | nil =>
      have hc : c ∈ stops := hs c (by rw [show s = c :: (t ++ r) from h.symm]; rfl)
      exact absurd hc (ht c List.mem_cons_self)
    | cons d u =>
      obtain ⟨rfl,htail⟩ := List.cons.inj h
      obtain ⟨rfl,hrest⟩ :=
        ih (fun c hc => ht c (List.mem_cons_of_mem _ hc)) (fun c hc => hu c (List.mem_cons_of_mem _ hc)) htail
      exact ⟨rfl,hrest⟩

/-- Words that are taken off a text one by one are read up to a symbol that begins none. -/
theorem flatMap_cancel {word : α → List σ} {take : List σ → Option (α × List σ)} {close : σ}
    (htake : ∀ a r, take (word a ++ r) = some (a,r)) (hclose : ∀ r, take (close :: r) = none) {as bs : List α}
    {r s : List σ} (h : as.flatMap word ++ close :: r = bs.flatMap word ++ close :: s) : as = bs ∧ r = s := by
  induction as generalizing bs with
  | nil =>
    cases bs with
    | nil => exact ⟨rfl,(List.cons.inj h).2⟩
    | cons b bs =>
      rw [List.flatMap_nil, List.nil_append, List.flatMap_cons, List.append_assoc] at h
      have htaken := congrArg take h
      rw [hclose, htake] at htaken
      cases htaken
  | cons a as ih =>
    cases bs with
    | nil =>
      rw [List.flatMap_nil, List.nil_append, List.flatMap_cons, List.append_assoc] at h
      have htaken := congrArg take h
      rw [hclose, htake] at htaken
      cases htaken
    | cons b bs =>
      rw [List.flatMap_cons, List.flatMap_cons, List.append_assoc, List.append_assoc] at h
      have htaken := congrArg take h
      rw [htake, htake] at htaken
      obtain ⟨rfl,hrest⟩ := Prod.mk.inj (Option.some.inj htaken)
      obtain ⟨rfl,hr⟩ := ih hrest
      exact ⟨rfl,hr⟩

/-- From the texts of two parts and of what follows, the same value is read, and the same rest. -/
def Reads (stops : List σ) (text : α → List σ) (value : α → γ) (a b : α) : Prop :=
  ∀ r s, Stops stops r → Stops stops s → text a ++ r = text b ++ s → value a = value b ∧ r = s

def Starts (close : σ) (text : List σ) : Prop := ∃ c rest, text = c :: rest ∧ c ≠ close

section Separated
variable {stops : List σ} {text : α → List σ} {value : α → γ} {separator close : σ} {as bs : List α} {r s : List σ}

/-- Parts after separators, up to a closing symbol. -/
theorem separated_cancel (hseparator : separator ∈ stops) (hclose : close ∈ stops) (hne : separator ≠ close)
    (hreads : ∀ a ∈ as, ∀ b ∈ bs, Reads stops text value a b)
    (h : (as.flatMap fun a => separator :: text a) ++ close :: r =
      (bs.flatMap fun b => separator :: text b) ++ close :: s) :
    as.map value = bs.map value ∧ r = s := by
  have hstops : ∀ (cs : List α) (r : List σ),
    Stops stops ((cs.flatMap fun c => separator :: text c) ++ close :: r) := by
    intro cs r
    cases cs with
    | nil => exact stops_cons hclose r
    | cons c cs => exact stops_cons hseparator _
  induction as generalizing bs with
  | nil =>
    cases bs with
    | nil => exact ⟨rfl,(List.cons.inj h).2⟩
    | cons b bs => exact absurd (List.cons.inj h).1.symm hne
  | cons a as ih =>
    cases bs with
    | nil => exact absurd (List.cons.inj h).1 hne
    | cons b bs =>
      rw [List.flatMap_cons, List.flatMap_cons, List.append_assoc, List.append_assoc] at h
      obtain ⟨hvalue,hrest⟩ :=
        hreads a List.mem_cons_self b List.mem_cons_self _ _ (hstops as r) (hstops bs s) (List.cons.inj h).2
      obtain ⟨hvalues,hr⟩ :=
        ih (fun a ha b hb => hreads a (List.mem_cons_of_mem _ ha) b (List.mem_cons_of_mem _ hb)) hrest
      rw [List.map_cons, List.map_cons, hvalue, hvalues]
      exact ⟨rfl,hr⟩

/-- Parts between separators, up to a closing symbol that begins none. -/
theorem joined_cancel (join : List α → List σ) (hseparator : separator ∈ stops) (hclose : close ∈ stops)
    (hne : separator ≠ close) (hreads : ∀ a ∈ as, ∀ b ∈ bs, Reads stops text value a b)
    (has : ∀ a ∈ as, Starts close (text a)) (hbs : ∀ b ∈ bs, Starts close (text b))
    (hnil : join [] = []) (hcons : ∀ a rest, join (a :: rest) = text a ++ rest.flatMap fun b => separator :: text b)
    (h : join as ++ close :: r = join bs ++ close :: s) : as.map value = bs.map value ∧ r = s := by
  cases as with
  | nil =>
    cases bs with
    | nil =>
      rw [hnil] at h
      exact ⟨rfl,(List.cons.inj h).2⟩
    | cons b bs =>
      obtain ⟨c,rest,hc,hcne⟩ := hbs b List.mem_cons_self
      rw [hnil, hcons, hc] at h
      exact absurd (List.cons.inj h).1.symm hcne
  | cons a as =>
    cases bs with
    | nil =>
      obtain ⟨c,rest,hc,hcne⟩ := has a List.mem_cons_self
      rw [hnil, hcons, hc] at h
      exact absurd (List.cons.inj h).1 hcne
    | cons b bs =>
      -- a separator before the first part too
      have hboth := congrArg (separator :: ·) h
      rw [hcons, hcons] at hboth
      refine separated_cancel hseparator hclose hne hreads ?_
      rw [List.flatMap_cons, List.flatMap_cons]
      exact hboth

end Separated

end UnlearnShield.Delimited
