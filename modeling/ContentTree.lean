import ContentTree.Change
import ContentTree.Creation
import ContentTree.Descriptor.Basic
import ContentTree.Descriptor.Collection
import ContentTree.Descriptor.NodeType
import ContentTree.Directive
import ContentTree.Fault
import ContentTree.NameSet
import ContentTree.Parameter
import ContentTree.Path.Ascent
import ContentTree.Path.Basic
import ContentTree.Policy
import ContentTree.Proofs.Creation.Commutation
import ContentTree.Proofs.Creation.Effect
import ContentTree.Proofs.Creation.Growth
import ContentTree.Proofs.Creation.Outcome
import ContentTree.Proofs.Creation.Refusal
import ContentTree.Proofs.Creation.Search
import ContentTree.Proofs.Creation.Staleness
import ContentTree.Proofs.Creation.Stepwise
import ContentTree.Proofs.Descriptor.Blanks
import ContentTree.Proofs.Descriptor.EffectiveValues
import ContentTree.Proofs.Descriptor.LastWriter
import ContentTree.Proofs.Descriptor.Mention
import ContentTree.Proofs.Descriptor.NormalKeys
import ContentTree.Proofs.Descriptor.Refusal
import ContentTree.Proofs.Descriptor.Reordering
import ContentTree.Proofs.Descriptor.Suffixes
import ContentTree.Proofs.Lists
import ContentTree.Proofs.Outcomes
import ContentTree.Proofs.Path.Ascent
import ContentTree.Proofs.Path.Canonical
import ContentTree.Proofs.Path.Joining
import ContentTree.Proofs.Path.LastSegment
import ContentTree.Proofs.Path.NormalForm
import ContentTree.Proofs.Path.Parent
import ContentTree.Proofs.Reconciliation.Completion
import ContentTree.Proofs.Reconciliation.Effect
import ContentTree.Proofs.Reconciliation.Minimality
import ContentTree.Proofs.Reconciliation.Outcome
import ContentTree.Proofs.Reconciliation.Script
import ContentTree.Proofs.Request.Answer
import ContentTree.Proofs.Request.Mixins
import ContentTree.Proofs.Request.Outcome
import ContentTree.Proofs.Request.Repetition
import ContentTree.Proofs.Request.Reporting
import ContentTree.Proofs.Request.Response
import ContentTree.Proofs.Request.Restraint
import ContentTree.Proofs.Request.Retention
import ContentTree.Proofs.Request.Steering
import ContentTree.Proofs.Session.Consistency
import ContentTree.Proofs.Session.Freezing
import ContentTree.Proofs.Session.Lookup
import ContentTree.Proofs.Session.Preparation
import ContentTree.Proofs.Session.Reachable
import ContentTree.Proofs.Session.Recording
import ContentTree.Proofs.Session.Unlocking
import ContentTree.Proofs.Tree.Chain
import ContentTree.Proofs.Tree.Checkout
import ContentTree.Proofs.Tree.Edits
import ContentTree.Proofs.Tree.Items
import ContentTree.Proofs.Tree.Reach
import ContentTree.Proofs.Tree.Region
import ContentTree.Reconciliation
import ContentTree.Request
import ContentTree.Session.Basic
import ContentTree.Session.Query
import ContentTree.Session.Step
import ContentTree.Session.Work
import ContentTree.Table
import ContentTree.Tree.Basic
import ContentTree.Tree.Edit
import ContentTree.Tree.Item
import ContentTree.Tree.Outline
import ContentTree.Tree.Versioning
