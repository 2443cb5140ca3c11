import ExtensibleCheck.Proofs.Session.Journal
import ExtensibleCheck.Proofs.Walk.Dealings

/-! The shape of the walk through a file. Whatever the walk does below a node is put together from
quiet steps, from uses of hooks that belong to that node, and from visits to its children; and a
visit to a child is announced, or brings a scope along, or neither. -/

namespace ExtensibleCheck

namespace Visitor

open Session Run SessionState

variable {ι μ : Type} [DecidableEq ι] (v : Visitor ι μ)

/-- Stretches of the walk below a node, with the children that they come to. A child is only entered
along a stretch that comes to each of its own children once. -/
inductive Walk : Occurrence → List Occurrence → Session ι μ Unit → Prop
  | stay (o children) : Walk o children (pure ())
  | andThen {o children children' m m'} : Walk o children m → Walk o children' m' →
      Walk o (children ++ children') (m >>= fun _ => m')
  | quiet {o children α} {m : Session ι μ α} {f : α → Session ι μ Unit} :
      IsQuiet m → (∀ a, Walk o children (f a)) → Walk o children (m >>= f)
  | use {o children call f} : v.Uses o call → (∀ answer, Walk o children (f answer)) →
      Walk o children (v.checker.raise call >>= f)
  | inside {o child children m} : child ∈ o.children → child.announcement? = none →
      child.kind.isClosure = false → child.isBodiless = false → children.Nodup →
      Walk child children m → Walk o [child] m
  | announced {o child before after children body} : child ∈ o.children →
      child.announcement? = some (before, after) → children.Nodup → Walk child children body →
      Walk o [child] (v.announced before after body)
  | enclosed {o child children body} : child ∈ o.children → child.kind.isClosure = true →
      children.Nodup → Walk child children body → Walk o [child] (v.enclosed child body)

variable {v}

namespace Walk

variable {o : Occurrence}

theorem ofQuiet {m : Session ι μ Unit} (h : IsQuiet m) : v.Walk o [] m := by
  rw [← bind_pure m]
  exact .quiet h fun _ => .stay o _

theorem select (target : Candidate CheckedType) (h : o.treatment = .call) :
    v.Walk o [] (v.checker.select o target) := by
  refine .quiet (Keeps.modify fun _ => quiet_of_eq rfl rfl) fun _ => ?_
  refine .quiet (quiet_record rfl) fun _ => ?_
  rw [← bind_pure (v.checker.raise _)]
  exact .use (.selection h) fun _ => .stay o _

theorem choose (h : o.treatment = .call) (name : Occurrence) (receiver : CheckedType)
    (types : List CheckedType) (candidates : List (Candidate CheckedType)) :
    v.Walk o [] (v.choose o name receiver types candidates) := by
  rcases candidates with _ | ⟨target, _ | ⟨target', rest⟩⟩
  · exact ofQuiet (quiet_report _ _ name)
  · exact select target h
  · exact ofQuiet (quiet_report _ _ name)

end Walk

/-- What the dealings of the walk come to, if only the uses of hooks count. -/
theorem Deals.walk {o : Occurrence} {children : List Occurrence} {m : Session ι μ Unit}
    (h : v.Deals o children m) : v.Walk o children m := by
  induction h with
  | nothing => exact .stay _ _
  | andThen _ _ ih ih' => exact .andThen ih ih'
  | say line => exact .ofQuiet (Keeps.ite (quiet_print line) (Keeps.pure ()))
  | lookUp _ _ ih => exact .quiet (quiet_typeOf _) ih
  | askStored _ _ ih => exact .quiet (quiet_hasStored _) ih
  | offer message huse _ =>
      exact .use huse fun _ => .ofQuiet (Keeps.ite (Keeps.pure ()) (quiet_report _ message _))
  | select ht _ => exact .select _ ht
  | supply name receiver arguments types ht =>
      refine .use (.missing ht) fun found => ?_
      split
      · exact .use (.ambiguous ht) fun chosen => .choose ht name receiver types chosen
      · exact .choose ht name receiver types found
  | inside hchild hplain hopen hbody honce _ ih => exact .inside hchild hplain hopen hbody honce ih
  | announced hchild hannounced honce _ ih => exact .announced hchild hannounced honce ih
  | enclosed hchild hclosure honce _ ih => exact .enclosed hchild hclosure honce ih

/-- What the walk enters into the journal has a property if the entries of every single turn have
it. What holds of the place where the walk starts is handed down to all places that it enters. -/
theorem Walk.writes {P : Event ι → Prop} {Q : Occurrence → Prop}
    (hquiet : ∀ e : Event ι, e.isTurn = false → P e)
    (hchild : ∀ {o child}, Q o → child ∈ o.children → child.isBodiless = false → Q child)
    (huse : ∀ {o call}, Q o → v.Uses o call → Checker.EntersAs P call)
    (hannounced : ∀ {o child before after}, Q o → child ∈ o.children →
      child.announcement? = some (before, after) →
        Checker.EntersAs P (.ask before) ∧ Checker.EntersAs P (.notify after))
    (hbrought : ∀ {o child}, Q o → child ∈ o.children → child.kind.isClosure = true →
      ∀ extensions, P (.brought child extensions))
    {o : Occurrence} {children : List Occurrence} {m : Session ι μ Unit}
    (h : v.Walk o children m) (ho : Q o) : Writes P m := by
  induction h with
  | stay => exact Keeps.pure ()
  | andThen _ _ ih ih' => exact (ih ho).bind fun _ => ih' ho
  | quiet hm _ ih => exact (hm.writes hquiet).bind fun a => ih a ho
  | use hcall _ ih =>
      have hraise := writes_of_keeps (v.checker.writes_raise hquiet (huse ho hcall))
      exact hraise.bind fun answer => ih answer ho
  | inside hmem _ _ hbody _ _ ih => exact ih (hchild ho hmem hbody)
  | announced hmem hsome _ _ ih =>
      obtain ⟨hbefore, hafter⟩ := hannounced ho hmem hsome
      have hinner := ih (hchild ho hmem (Occurrence.isBodiless_of_announcement? hsome))
      have hlast := writes_of_keeps (v.checker.writes_raise hquiet hafter)
      refine (writes_of_keeps (v.checker.writes_raise hquiet hbefore)).bind fun taken => ?_
      exact Keeps.ite hlast (hinner.bind fun _ => hlast)
  | @enclosed o child _ _ hmem hclosure _ _ ih =>
      have hbody : child.isBodiless = false :=
        Occurrence.isBodiless_of_treatment (by simp [Occurrence.isClosure_iff.mp hclosure])
      have hinner := ih (hchild ho hmem hbody)
      refine (writes_of_keeps (v.checker.writes_localExtensionsFor hquiet
        (hbrought ho hmem hclosure))).bind fun extensions => Keeps.ite hinner ?_
      exact (writes_pushLocal P extensions).bind fun _ => hinner.ensuring (writes_popLocal P)

end Visitor

open Visitor

theorem Checker.visitFile_walk {ι μ : Type} [DecidableEq ι] (c : Checker ι μ) (file : SourceFile) :
    (c.visitor file).Walk file.rootOccurrence file.rootOccurrence.children (c.visitFile file) :=
  (c.visitFile_deals file).walk

end ExtensibleCheck
