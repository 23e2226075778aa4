import UtilityCss.Arithmetic
import UtilityCss.ClassName
import UtilityCss.Component
import UtilityCss.Declaration
import UtilityCss.Number
import UtilityCss.OrderedMap
import UtilityCss.Reference
import UtilityCss.Resolver
import UtilityCss.Rule.Outline
import UtilityCss.Rule.Printer
import UtilityCss.StyleSet
import UtilityCss.Stylesheet
import UtilityCss.Text
import UtilityCss.Theme
import UtilityCss.Token
import UtilityCss.Proofs.Arithmetic.Pending
import UtilityCss.Proofs.Arithmetic.Product
import UtilityCss.Proofs.Arithmetic.Quantity
import UtilityCss.Proofs.Arithmetic.Twice
import UtilityCss.Proofs.Arithmetic.Walk
import UtilityCss.Proofs.ClassName.Basic
import UtilityCss.Proofs.ClassName.Spelling
import UtilityCss.Proofs.Component.Formed
import UtilityCss.Proofs.Component.Framed
import UtilityCss.Proofs.Declaration.ReadBack
import UtilityCss.Proofs.Number.Decimal
import UtilityCss.Proofs.Number.Layout
import UtilityCss.Proofs.OrderedMap
import UtilityCss.Proofs.PropertyName
import UtilityCss.Proofs.Reference.Dangling
import UtilityCss.Proofs.Reference.Expansion
import UtilityCss.Proofs.Reference.Grammar
import UtilityCss.Proofs.Reference.Occurrence
import UtilityCss.Proofs.Reference.Solved
import UtilityCss.Proofs.Resolver.Inputs
import UtilityCss.Proofs.Resolver.Result
import UtilityCss.Proofs.Rule.Differ
import UtilityCss.Proofs.Rule.Outline
import UtilityCss.Proofs.Rule.Printed
import UtilityCss.Proofs.Rule.Respelled
import UtilityCss.Proofs.StyleSet
import UtilityCss.Proofs.Stylesheet.Comments
import UtilityCss.Proofs.Stylesheet.Leaves
import UtilityCss.Proofs.Stylesheet.Names
import UtilityCss.Proofs.Stylesheet.Registrations
import UtilityCss.Proofs.Stylesheet.RoundTrip
import UtilityCss.Proofs.Stylesheet.Theme
import UtilityCss.Proofs.Stylesheet.Utilities
import UtilityCss.Proofs.Text.Basic
import UtilityCss.Proofs.Text.Cut
import UtilityCss.Proofs.Text.TopLevel
import UtilityCss.Proofs.Theme
import UtilityCss.Proofs.Token.Boundary
import UtilityCss.Proofs.Token.Cut
import UtilityCss.Proofs.Token.First
import UtilityCss.Proofs.Token.Headings
import UtilityCss.Proofs.Token.Locality
import UtilityCss.Proofs.Token.Numeral
import UtilityCss.Proofs.Token.Plain
import UtilityCss.Proofs.Token.Spaced
import UtilityCss.Proofs.Token.Units
import UtilityCss.Proofs.Token.Within
