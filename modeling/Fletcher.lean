import Fletcher.Core.EntryVector
import Fletcher.FastDds.SampleType
import Fletcher.Bridge.Paths
import Fletcher.Bridge.Dictionary
import Fletcher.Bridge.TrailingField
import Fletcher.Bridge.BatchAccept
import Fletcher.Bridge.BatchBudget
import Fletcher.Ts.RoundTrip
import Fletcher.Ts.Envelope
import Fletcher.Protoc.AccessorRead
import Fletcher.Protoc.AccessorGate
import Fletcher.Protoc.TsAgreement
import Fletcher.Protoc.EdgeDecode
import Fletcher.PubSub.Delivery
import Fletcher.PubSub.Publisher
import Fletcher.Xrce.Resubscribe
import Fletcher.PubSub.Agreement
import Fletcher.PubSub.SchemaWatch
import Fletcher.PubSub.ProviderRegistry
import Fletcher.Gateway.Subscribing
import Fletcher.Gateway.SchemaCodec
import Fletcher.Protoc.Topics
import Fletcher.Protoc.Classes
import Fletcher.Protoc.Recursion
import Fletcher.Protoc.Literals
